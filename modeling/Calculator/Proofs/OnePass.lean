/-
  Calculator.Proofs.OnePass — reading a body in one pass, compared with reading it as a value.

  The pass over an object is a fold over its members (`reads_named`), and it goes through exactly if
  every name can be read and at most one member has the field's name and a value (`Picks`,
  `foldlM_push_eq_ok_iff`). The members it passes over need no value, and the depth it allows them is
  enough for whatever the body can hold (`Json.skips_members`).

  Both ways of reading find the same field where both go through. The pass refuses a second member
  of the name, which reading a value does not. Reading a value refuses flaws in the members that are
  passed over, and every array; the pass does not.

  Main statement: `onePassLaw`.
-/

import Calculator.Proofs.Json.Skipping
import Calculator.Proofs.Submission

namespace Calculator.Submission

open Json Reader

variable {members : List (List Piece × Writing)} {member : List Piece × Writing} {values : List (String × Json)}
  {found found' : Option (Option Field)} {field : Option Field} {x? : Option Json} {depth : Nat} {body : List UInt8}

/-! ## The pass as a fold -/

/-- What the pass makes of a member of this name, where `found` is the field if it was seen before. -/
def pushNamed (depth : Nat) (found : Option (Option Field)) (name : String) (w : Writing) : Except Fault (Option (Option Field)) :=
  if name = fieldName then
    if found.isSome then .error .wrongShape
    else (w.value 126).map fun value => some (Field.ofJson value)
  else (w.make .skipping .skipping depth).map fun _ => found

def push (depth : Nat) (found : Option (Option Field)) (member : List Piece × Writing) : Except Fault (Option (Option Field)) :=
  orIllFormed (Piece.text? member.1) >>= fun name => pushNamed depth found name member.2

theorem push_eq {name : String} (hname : Spells member.1 name.toList) :
    push depth found member = pushNamed depth found name member.2 := by
  unfold push
  rw [Piece.text?_eq_some_iff.2 hname]
  rfl

theorem reads_fieldValue :
    Reads fieldValue Writing.Written fun w => (w.value 126).map Field.ofJson :=
  (reads_building 126).map Field.ofJson

theorem reads_memberOnto (depth : Nat) (found : Option (Option Field)) :
    Reads (memberOnto depth found) (Member Writing.Written) (push depth found) := by
  have hnext (name : String) : Reads
      (if name = fieldName then
        if found.isSome then .fail .wrongShape
        else (mark ':').bind fun _ => fieldValue.map some
      else (mark ':').bind fun _ => (Scheme.skipping.value depth).map fun _ => found)
      (Marked ':' Writing.Written) (pushNamed depth found name) := by
    unfold pushNamed
    by_cases hname : name = fieldName
    · simp only [if_pos hname]
      by_cases hfound : found.isSome = true
      · simp only [if_pos hfound]
        exact reads_fail .wrongShape
      · simp only [if_neg hfound]
        refine ((reads_fieldValue.map some).marked .colon).congr (fun _ _ _ => Iff.rfl) fun w => ?_
        cases w.value 126 <;> rfl
    · simp only [if_neg hname]
      exact ((reads_skipping depth).map fun _ => found).marked .colon
  exact ((reads_quoted.marked .quote).bind .colon hnext).congr member_iff fun _ => rfl

theorem reads_named (depth : Nat) :
    Reads (named depth) (Inside (Member Writing.Written) '\x7d') fun members =>
      (members.foldlM (push depth) none).map Option.join :=
  (reads_inside (reads_memberOnto depth) opens_member .brace (by decide) none).map Option.join

/-! ## Where the pass goes through -/

/-- The value of the only member with the field's name, or none where there is no such member. Every
name can be read. -/
inductive Picks : List (List Piece × Writing) → Option Json → Prop
  | nil : Picks [] none
  | other {member : List Piece × Writing} {members : List (List Piece × Writing)} {name : String} {x? : Option Json} :
      Spells member.1 name.toList → name ≠ fieldName → Picks members x? → Picks (member :: members) x?
  | field {member : List Piece × Writing} {members : List (List Piece × Writing)} {x : Json} :
      Spells member.1 fieldName.toList → member.2.value 126 = .ok x → Picks members none →
      Picks (member :: members) (some x)

theorem push_of_other {name : String} (hs : Skips depth member.2) (hname : Spells member.1 name.toList)
    (hne : name ≠ fieldName) : push depth found member = .ok found := by
  have hs : member.2.make .skipping .skipping depth = .ok () := hs
  rw [push_eq hname, pushNamed, if_neg hne, hs]
  rfl

theorem push_of_field (hname : Spells member.1 fieldName.toList) {x : Json}
    (hx : member.2.value 126 = .ok x) : push depth none member = .ok (some (Field.ofJson x)) := by
  rw [push_eq hname, pushNamed, if_pos rfl, hx]
  rfl

/-- A member the pass gets over is another one, or the first of the name. -/
theorem push_eq_ok (h : push depth found member = .ok found') :
    (∃ name : String, Spells member.1 name.toList ∧ name ≠ fieldName ∧ found' = found) ∨
      Spells member.1 fieldName.toList ∧ found = none ∧
        ∃ x, member.2.value 126 = .ok x ∧ found' = some (Field.ofJson x) := by
  cases hname : Piece.text? member.1 with
  | none =>
    rw [push, hname] at h
    cases h
  | some name =>
    have hspells := Piece.text?_eq_some_iff.1 hname
    rw [push_eq hspells] at h
    unfold pushNamed at h
    split at h
    next heq =>
      split at h
      · cases h
      next hfound =>
        obtain ⟨x, hx, rfl⟩ := map_eq_ok.1 h
        rw [heq] at hspells
        exact .inr ⟨hspells, Option.not_isSome_iff_eq_none.1 hfound, x, hx, rfl⟩
    next hne =>
      obtain ⟨_, -, rfl⟩ := map_eq_ok.1 h
      exact .inl ⟨name, hspells, hne, rfl⟩

/-- The pass goes through just where it picks nothing, or picks a member and none was found before. -/
theorem foldlM_push_eq_ok_iff (hs : ∀ member ∈ members, Skips depth member.2) :
    members.foldlM (push depth) found = .ok found' ↔
      ∃ x?, Picks members x? ∧ (x? = none ∨ found = none) ∧ found' = (x?.map Field.ofJson).or found := by
  induction members generalizing found with
  | nil =>
    constructor
    · intro h
      cases h
      exact ⟨none, .nil, .inl rfl, rfl⟩
    · intro h
      obtain ⟨x?, hpicks, -, rfl⟩ := h
      cases hpicks
      rfl
  | cons member members ih =>
    have hs' : ∀ m ∈ members, Skips depth m.2 := fun m hm => hs m (List.mem_cons_of_mem _ hm)
    have hmember := hs member List.mem_cons_self
    rw [List.foldlM_cons]
    constructor
    · intro h
      cases hpush : push depth found member with
      | error e =>
        rw [hpush] at h
        cases h
      | ok next =>
        rw [hpush] at h
        obtain ⟨x?, hpicks, hor, rfl⟩ := (ih hs').1 h
        rcases push_eq_ok hpush with ⟨name, hname, hne, rfl⟩ | ⟨hname, rfl, x, hx, rfl⟩
        · exact ⟨x?, .other hname hne hpicks, hor, rfl⟩
        · rcases hor with rfl | hno
          · exact ⟨some x, .field hname hx hpicks, .inr rfl, rfl⟩
          · cases hno
    · intro h
      obtain ⟨x?, hpicks, hor, rfl⟩ := h
      cases hpicks with
      | other hname hne hpicks =>
        rw [push_of_other hmember hname hne]
        exact (ih hs').2 ⟨x?, hpicks, hor, rfl⟩
      | field hname hx hpicks =>
        rcases hor with hno | rfl
        · cases hno
        · rw [push_of_field hname hx]
          exact (ih hs').2 ⟨none, hpicks, .inl rfl, rfl⟩

/-! ## Both ways of reading -/

theorem lookup_cons (name : String) (value : String × Json) :
    lookup name (value :: values) = (lookup name values).or (if value.1 = name then some value.2 else none) := by
  unfold lookup
  rw [List.reverse_cons, List.find?_append, Option.map_or]
  by_cases hname : value.1 = name
  · simp [hname]
  · simp [hname]

/-- What the pass picks is what the last member of the name has. -/
theorem lookup_of_picks (h : Picks members x?) (hvalues : members.mapM (Writing.memberValue 126) = .ok values) :
    lookup fieldName values = x? := by
  induction h generalizing values with
  | nil =>
    cases hvalues
    rfl
  | other hname hne _ ih =>
    obtain ⟨⟨name', x⟩, values, rfl, hvalue, htail⟩ := mapM_cons_eq_ok_iff.1 hvalues
    obtain rfl := Piece.spells_unique (Writing.memberValue_eq_ok_iff.1 hvalue).1 hname
    rw [lookup_cons, ih htail, if_neg hne, Option.or_none]
  | field hname hx _ ih =>
    obtain ⟨⟨name', x'⟩, values, rfl, hvalue, htail⟩ := mapM_cons_eq_ok_iff.1 hvalues
    obtain ⟨hname', hx'⟩ := Writing.memberValue_eq_ok_iff.1 hvalue
    obtain rfl := Piece.spells_unique hname' hname
    rw [hx] at hx'
    cases hx'
    rw [lookup_cons, ih htail, if_pos rfl, Option.none_or]

/-- Where every member has a value, and at most one the field's name, the pass goes through. -/
theorem exists_picks (hvalues : members.mapM (Writing.memberValue 126) = .ok values)
    (hcount : (values.map (·.1)).count fieldName ≤ 1) : ∃ x?, Picks members x? := by
  induction members generalizing values with
  | nil => exact ⟨none, .nil⟩
  | cons member members ih =>
    obtain ⟨⟨name, x⟩, values, rfl, hvalue, htail⟩ := mapM_cons_eq_ok_iff.1 hvalues
    obtain ⟨hname, hx⟩ := Writing.memberValue_eq_ok_iff.1 hvalue
    rw [List.map_cons, List.count_cons] at hcount
    obtain ⟨x?, hpicks⟩ := ih htail (by omega)
    by_cases heq : name = fieldName
    · subst heq
      have hnone : x? = none := by
        rw [← lookup_of_picks hpicks htail, lookup_eq_none_iff]
        intro value hmem hvalue
        have hcount' : 0 < (values.map (·.1)).count fieldName :=
          List.count_pos_iff.2 (List.mem_map.2 ⟨value, hmem, hvalue⟩)
        rw [if_pos (beq_self_eq_true fieldName)] at hcount
        omega
      subst hnone
      exact ⟨some x, .field hname hx hpicks⟩
    · exact ⟨x?, .other hname heq hpicks⟩

theorem picks_fieldOf (h : Picks members x?) (hvalues : members.mapM (Writing.memberValue 126) = .ok values) :
    fieldOf values = (x?.map Field.ofJson).join := by
  unfold fieldOf
  rw [lookup_of_picks h hvalues]
  cases x? <;> rfl

theorem Picks.spells (h : Picks members x?) : ∀ member ∈ members, ∃ name : String, Spells member.1 name.toList := by
  induction h with
  | nil => exact nofun
  | other hname _ _ ih =>
    intro member hmember
    rcases List.mem_cons.1 hmember with rfl | hmember
    · exact ⟨_, hname⟩
    · exact ih member hmember
  | field hname _ _ ih =>
    intro member hmember
    rcases List.mem_cons.1 hmember with rfl | hmember
    · exact ⟨_, hname⟩
    · exact ih member hmember

theorem Picks.exists_value (h : Picks members x?) :
    ∀ member ∈ members, Spells member.1 fieldName.toList → ∃ x, member.2.value 126 = .ok x := by
  induction h with
  | nil => exact nofun
  | other hname hne _ ih =>
    intro member hmember hspells
    rcases List.mem_cons.1 hmember with rfl | hmember
    · exact absurd (Piece.spells_unique hname hspells) hne
    · exact ih member hmember hspells
  | field _ hx _ ih =>
    intro member hmember hspells
    rcases List.mem_cons.1 hmember with rfl | hmember
    · exact ⟨_, hx⟩
    · exact ih member hmember hspells

/-- An object that the pass gets through has flaws only in members with another name. -/
theorem flaw_iff_of_picks (h : Picks members x?) :
    Flaw 127 (.object members) ↔
      ∃ member ∈ members, ¬ Spells member.1 fieldName.toList ∧ Flaw 126 member.2 := by
  constructor
  · intro hflaw
    have hflaw : Flaw (126 + 1) (.object members) := hflaw
    cases hflaw with
    | name hmember hflaw =>
      obtain ⟨name, hname⟩ := h.spells _ hmember
      rw [Piece.flaw_iff, Piece.text?_eq_some_iff.2 hname] at hflaw
      cases hflaw
    | member hmember hflaw =>
      refine ⟨_, hmember, fun hspells => ?_, hflaw⟩
      obtain ⟨x, hx⟩ := h.exists_value _ hmember hspells
      exact not_denotes_of_flaw hflaw x (Writing.value_eq_ok_iff.1 hx)
  · intro h
    obtain ⟨member, hmember, -, hflaw⟩ := h
    show Flaw (126 + 1) (.object members)
    exact .member hmember hflaw

def StartsObject (body : List UInt8) : Prop := ∃ rest, Blanks body ('\x7b'.toUInt8 :: rest)

/-! ## The three kinds of bodies -/

section

variable {input start rest : List UInt8} {b : UInt8}

theorem read_onePass_object (depth : Nat) (h : Blanks input ('\x7b'.toUInt8 :: start)) :
    (onePass depth).read input = (named depth).read start := by
  have hbrace : Char.ofUInt8 '\x7b'.toUInt8 = '\x7b' := by decide
  have hskip : skipBlanks input = '\x7b'.toUInt8 :: start := skipBlanks_eq_cons h (by decide)
  simp only [onePass, hskip, hbrace, if_pos]

/-- What is no object is an array, or not read. -/
theorem read_onePass_array (h : (onePass depth).read input = .ok (field, rest)) (hno : ¬ StartsObject input) :
    ∃ start, Blanks input ('['.toUInt8 :: start) ∧ positional.read start = .ok (field, rest) := by
  simp only [onePass] at h
  split at h
  · cases h
  next b start hskip =>
  split at h
  next hb => exact absurd ⟨start, blanks_of_skipBlanks hskip hb⟩ hno
  split at h
  next hb => exact ⟨start, blanks_of_skipBlanks hskip hb, h⟩
  · rw [otherwise, read_bind] at h
    obtain ⟨_, -, h⟩ := bind_eq_ok.1 h
    cases h

/-- An array that is read has one item with a value, or none. -/
theorem exists_array (h : positional.read input = .ok (field, rest)) :
    ∃ items values, Inside Writing.Written ']' items input rest ∧ items.mapM (Writing.value 126) = .ok values := by
  simp only [positional] at h
  split at h
  · cases h
  next b start hskip =>
  split at h
  next hb =>
    cases h
    exact ⟨[], [], .empty (blanks_of_skipBlanks hskip hb), rfl⟩
  · rw [read_bind] at h
    obtain ⟨taken, hread, h⟩ := bind_eq_ok.1 h
    have h : ((mark ']').map fun _ => taken.1).read taken.2 = .ok (field, rest) := h
    rw [read_map] at h
    obtain ⟨behind, hmark, heq⟩ := map_eq_ok.1 h
    cases heq
    obtain ⟨w, hw, hvalue⟩ := reads_fieldValue.exists_written hread
    obtain ⟨x, hx, -⟩ := map_eq_ok.1 hvalue
    exact ⟨[w], [x], .series (.last hw (blanks_of_read_mark hmark)), mapM_cons_eq_ok_iff.2 ⟨x, [], rfl, hx, rfl⟩⟩

end

/-- How reading in one pass compares with reading a value. -/
structure OnePassLaw (body : List UInt8) : Prop where
  /-- An object that has a value, and at most one member of the name, is read alike. -/
  agrees : ∀ values field, IsText body (.object values) → (values.map (·.1)).count "expression" ≤ 1 →
    decode body = .ok field → decodeInOnePass body = .ok field
  /-- An object that is read in one pass is read alike as a value, unless a member that is passed over
  has a flaw. Then it is refused for that. -/
  object : ∀ field, decodeInOnePass body = .ok field → StartsObject body →
    ∃ members rest, Writing.Written (.object members) body rest ∧ Blanks rest [] ∧
      ((∀ member ∈ members, ¬ Spells member.1 "expression".toList → ¬ Flaw 126 member.2) ∧
          decode body = .ok field ∨
        (∃ member ∈ members, ¬ Spells member.1 "expression".toList ∧ Flaw 126 member.2) ∧
          decode body = .error .illFormed)
  /-- Anything else that is read in one pass is an array, and refused as a value. -/
  array : ∀ field, decodeInOnePass body = .ok field → ¬ StartsObject body →
    (∃ items, IsText body (.array items)) ∧ decode body = .error .wrongShape

theorem onePassLaw (body : List UInt8) : OnePassLaw body where
  agrees values field htext hcount hdecode := by
    obtain ⟨members, rest, hw, hblanks, hvalues⟩ := isText_object_iff.1 htext
    obtain ⟨x?, hpicks⟩ := exists_picks hvalues hcount
    have hfield : field = (x?.map Field.ofJson).join := by
      rw [decode_eq_ok_iff.2 ⟨values, htext, fieldOf_eq_iff.1 rfl⟩] at hdecode
      cases hdecode
      exact picks_fieldOf hpicks hvalues
    cases hw with
    | @object _ _ start _ hstart hinside =>
      have hlength := hstart.length_le
      simp only [List.length_cons] at hlength
      have hskips : ∀ member ∈ members, Skips body.length member.2 := skips_members hinside (by omega)
      have hfold : members.foldlM (push body.length) none = .ok (x?.map Field.ofJson) :=
        (foldlM_push_eq_ok_iff hskips).2 ⟨x?, hpicks, .inr rfl, (Option.or_none).symm⟩
      refine whole_eq_ok_iff.2 ⟨rest, ?_, hblanks⟩
      rw [read_onePass_object _ hstart, (reads_named _).read_eq hinside (hblanks.ends .nil), hfold, hfield]
      rfl
  object field h hstarts := by
    obtain ⟨rest, hread, hblanks⟩ := whole_eq_ok_iff.1 h
    obtain ⟨start, hstart⟩ := hstarts
    rw [read_onePass_object _ hstart] at hread
    obtain ⟨members, hinside, hmake⟩ := (reads_named _).exists_written hread
    obtain ⟨found, hfold, hfield⟩ := map_eq_ok.1 hmake
    have hlength := hstart.length_le
    simp only [List.length_cons] at hlength
    obtain ⟨x?, hpicks, -, hfound⟩ := (foldlM_push_eq_ok_iff (skips_members hinside (by omega))).1 hfold
    rw [Option.or_none] at hfound
    have hw : Writing.Written (.object members) body rest := .object hstart hinside
    refine ⟨members, rest, hw, hblanks, ?_⟩
    rcases value_eq_ok_or_flaw 127 (.object members) with ⟨value, hvalue⟩ | ⟨herror, hflaw⟩
    · refine .inl ⟨fun member hmember hother hflaw => ?_, ?_⟩
      · have hobject := (flaw_iff_of_picks hpicks).2 ⟨member, hmember, hother, hflaw⟩
        exact not_denotes_of_flaw hobject value (Writing.value_eq_ok_iff.1 hvalue)
      · rw [Writing.value_object] at hvalue
        obtain ⟨values, hvalues, -⟩ := map_eq_ok.1 hvalue
        refine decode_eq_ok_iff.2 ⟨values, isText_object_iff.2 ⟨members, rest, hw, hblanks, hvalues⟩, ?_⟩
        rw [← fieldOf_eq_iff, picks_fieldOf hpicks hvalues, ← hfound, hfield]
    · refine .inr ⟨(flaw_iff_of_picks hpicks).1 hflaw, ?_⟩
      have hread : ofBytes body = .error .illFormed := (reads_building nestingLimit).whole_eq_error hw hblanks herror
      rw [decode, hread]
      rfl
  array field h hstarts := by
    obtain ⟨rest, hread, hblanks⟩ := whole_eq_ok_iff.1 h
    obtain ⟨start, hstart, hread⟩ := read_onePass_array hread hstarts
    obtain ⟨items, values, hinside, hvalues⟩ := exists_array hread
    have htext : IsText body (.array values) := by
      refine ⟨.array items, rest, .array hstart hinside, hblanks, Writing.value_eq_ok_iff.1 ?_⟩
      rw [Writing.value_array, hvalues]
      rfl
    exact ⟨⟨values, htext⟩, decode_eq_wrongShape_iff.2 ⟨_, htext, by simp⟩⟩

/-- The empty array is an empty list of members to the one, and no object to the other. -/
example : decodeInOnePass (word ['[', ']']) = .ok none ∧ decode (word ['[', ']']) = .error .wrongShape := ⟨rfl, rfl⟩

end Calculator.Submission
