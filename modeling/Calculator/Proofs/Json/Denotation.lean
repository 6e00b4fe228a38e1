/-
  Calculator.Proofs.Json.Denotation — what is made of a writing in reading is its value.

  A number's value is worked out digit by digit; that comes to the longest front of the digits that fits
  (`append_eq_iff`), a power of ten in range (`scaled?_eq_some_iff`), and so to what the number denotes
  (`value?_eq_some_iff`). Pieces are known to be texts if they spell them. Main statement:
  `value_eq_ok_iff`, by induction on how deep the writing may nest.
-/

import Calculator.Proofs.Binary64
import Calculator.Proofs.Json.Spelling

namespace Calculator.Json

attribute [local instance] natPower

/-! ## Numbers -/

namespace Numeral

variable {m m' left : Nat} {ds : List Nat} {e : Int} {x : Binary64} {n : Numeral}

theorem le_spelled (m : Nat) (ds : List Nat) : m ≤ spelled m ds := by
  induction ds generalizing m with
  | nil => exact Nat.le_refl m
  | cons d ds ih =>
    have h : m * 10 + d ≤ spelled m (d :: ds) := ih (m * 10 + d)
    omega

theorem fits_of_append (hm : m < UInt64.size) (h : append m ds = (m', left)) : Fits m ds m' left := by
  induction ds generalizing m with
  | nil =>
    cases h
    exact @Fits.intro _ [] [] hm nofun
  | cons d ds ih =>
    rw [append] at h
    split at h
    next hd =>
      cases ih hd h with
      | @intro front back hlt hback => exact @Fits.intro _ (d :: front) back hlt hback
    next hd =>
      cases h
      refine @Fits.intro _ [] (d :: ds) hm fun d' hd' => ?_
      cases hd'
      exact Nat.not_lt.1 hd

theorem Fits.lt (h : Fits m ds m' left) : m' < UInt64.size := by
  cases h with
  | intro hlt _ => exact hlt

theorem append_of_fits (h : Fits m ds m' left) : append m ds = (m', left) := by
  cases h with
  | @intro front back hlt hback =>
    induction front generalizing m with
    | nil =>
      cases back with
      | nil => rfl
      | cons d back => exact if_neg (Nat.not_lt.2 (hback d rfl))
    | cons d front ih =>
      have hd : m * 10 + d < UInt64.size := Nat.lt_of_le_of_lt (le_spelled _ front) hlt
      rw [List.cons_append, append, if_pos hd]
      exact ih hlt hback

theorem over_divideByPower (x : Binary64) (n : Nat) : Over x n (divideByPower x n) := by
  fun_induction divideByPower x n with
  | case1 x n h => exact .last h
  | case2 x n h hzero => exact .zero (Nat.not_le.1 h) hzero
  | case3 x n h hzero ih =>
    rw [powerOfTen] at ih ⊢
    exact .more (Nat.not_le.1 h) (Bool.eq_false_iff.2 hzero) ih

theorem divideByPower_of_over {y : Binary64} {k : Nat} (h : Over x k y) : divideByPower x k = y := by
  induction h with
  | last h => rw [divideByPower, if_pos h]; rfl
  | zero h hzero => rw [divideByPower, if_neg (Nat.not_le.2 h), if_pos hzero]
  | more h hzero _ ih =>
    rw [divideByPower, if_neg (Nat.not_le.2 h), if_neg (Bool.eq_false_iff.1 hzero), powerOfTen]
    exact ih

theorem scaled?_eq_some_iff : scaled? m e = some x ↔ Scaled m e x := by
  unfold scaled?
  dsimp only
  constructor
  · intro h
    split at h
    next he =>
      cases h
      have hneg : e = -(e.natAbs : Int) := by omega
      generalize e.natAbs = k at hneg ⊢
      subst hneg
      exact .divided (by omega) (over_divideByPower _ _)
    next he =>
      have hpos : e = (e.toNat : Int) := by omega
      generalize e.toNat = k at hpos h
      subst hpos
      split at h
      next hk =>
        obtain ⟨hx, hfinite⟩ := Option.filter_eq_some_iff.1 h
        obtain rfl := Option.some.inj hx
        exact .times (by omega) hfinite
      next hk =>
        split at h
        next hzero =>
          obtain rfl := Option.some.inj h
          obtain rfl := Binary64.isZero_ofNat_iff.1 hzero
          exact .zero (by omega) rfl
        · cases h
  · intro h
    cases h with
    | @times k hk hfinite =>
      rw [if_neg (by omega), if_pos (by omega)]
      exact Option.filter_eq_some_iff.2 ⟨rfl, hfinite⟩
    | @zero k hk hm =>
      subst hm
      rw [if_neg (by omega), if_neg (by omega), if_pos (Binary64.isZero_ofNat_iff.2 rfl)]
    | @divided k x hk hover =>
      rw [if_pos (by omega), Int.natAbs_neg, Int.natAbs_natCast, divideByPower_of_over hover]

/-- The magnitude of digits with an exponent, as it is worked out. -/
def raised? (m : Nat) (shift : Int) : Option (Bool × List Nat) → Option Binary64
  | none => scaled? m shift
  | some (negative, ds) =>
    if natural ds < UInt32.size / 2 then scaled? m (if negative then shift - natural ds else shift + natural ds)
    else if negative || m == 0 then some (.ofNat 0)
    else none

theorem raised_of_small {shift : Int} {negative : Bool} {ds : List Nat} (hsize : natural ds < UInt32.size / 2) :
    Raised m shift (some (negative, ds)) x ↔
      Scaled m (if negative then shift - natural ds else shift + natural ds) x := by
  have hspelled : spelled 0 ds = natural ds := rfl
  constructor
  · intro h
    cases h with
    | up _ h | down _ h => exact h
    | zero hlarge | tiny hlarge => omega
  · intro h
    cases negative with
    | false => exact .up hsize h
    | true => exact .down hsize h

theorem raised_of_large {shift : Int} {negative : Bool} {ds : List Nat} (hsize : ¬ natural ds < UInt32.size / 2) :
    Raised m shift (some (negative, ds)) x ↔ (negative = true ∨ m = 0) ∧ x = .ofNat 0 := by
  constructor
  · intro h
    cases h with
    | up hsmall | down hsmall => exact absurd hsmall hsize
    | zero _ hm => exact ⟨.inr hm, rfl⟩
    | tiny => exact ⟨.inl rfl, rfl⟩
  · intro h
    obtain ⟨h, hx⟩ := h
    rw [hx]
    cases negative with
    | true => exact .tiny (Nat.not_lt.1 hsize)
    | false => exact .zero (Nat.not_lt.1 hsize) (h.resolve_left Bool.false_ne_true)

theorem raised?_eq_some_iff {shift : Int} {exponent : Option (Bool × List Nat)} :
    raised? m shift exponent = some x ↔ Raised m shift exponent x := by
  rcases exponent with _ | ⟨negative, ds⟩
  · show scaled? m shift = some x ↔ _
    rw [scaled?_eq_some_iff]
    constructor
    · exact .plain
    · intro h
      cases h with
      | plain h => exact h
  · rw [raised?]
    by_cases hsize : natural ds < UInt32.size / 2
    · rw [if_pos hsize, scaled?_eq_some_iff, raised_of_small hsize]
    · rw [if_neg hsize, raised_of_large hsize, ← beq_iff_eq (a := m), ← Bool.or_eq_true]
      split
      · next h => exact ⟨fun hx => ⟨h, (Option.some.inj hx).symm⟩, fun hx => congrArg some hx.2.symm⟩
      · next h => exact ⟨nofun, fun hx => absurd hx.1 h⟩

theorem real?_eq_some_iff : n.real? = some x ↔ ∃ y, n.Magnitude y ∧ x = if n.negative then -y else y := by
  cases hwhole : append 0 n.whole with
  | mk whole surplus =>
  cases hfraction : append whole (n.fraction.getD []) with
  | mk significand unused =>
  have hreal : n.real? =
      (raised? significand (surplus - ((n.fraction.getD []).length - unused : Nat)) n.exponent).map fun y =>
        if n.negative then -y else y := by
    unfold real? raised?
    rw [hwhole]
    dsimp only
    rw [hfraction] <;> cases n.exponent <;> rfl
  have hfits := fits_of_append (by decide) hwhole
  rw [hreal, Option.map_eq_some_iff]
  constructor
  · intro h
    obtain ⟨y, hy, rfl⟩ := h
    exact ⟨y, .intro hfits (fits_of_append hfits.lt hfraction) (raised?_eq_some_iff.1 hy), rfl⟩
  · intro h
    obtain ⟨y, hy, rfl⟩ := h
    refine ⟨y, ?_, rfl⟩
    cases hy with
    | intro hw hf hr =>
      rw [append_of_fits hw] at hwhole
      cases hwhole
      rw [append_of_fits hf] at hfraction
      cases hfraction
      exact raised?_eq_some_iff.2 hr

theorem Whole.unique {i j : Int} (hi : n.Whole i) (hj : n.Whole j) : i = j := by
  cases hi with
  | positive hsign =>
    cases hj with
    | positive => rfl
    | negative hsign' =>
      rw [hsign] at hsign'
      cases hsign'
  | negative hsign =>
    cases hj with
    | positive hsign' =>
      rw [hsign] at hsign'
      cases hsign'
    | negative => rfl

theorem value?_cases (n : Numeral) :
    (∃ i, n.Whole i ∧ n.value? = some (.whole i)) ∨ (∀ i, ¬ n.Whole i) ∧ n.value? = n.real?.map .real := by
  have hspelled : spelled 0 n.whole = natural n.whole := rfl
  unfold value?
  dsimp only
  split
  next hparts =>
    obtain ⟨hfraction, hexponent⟩ := Bool.and_eq_true_iff.1 hparts
    have hfraction := Option.isNone_iff_eq_none.1 hfraction
    have hexponent := Option.isNone_iff_eq_none.1 hexponent
    split
    next hpositive =>
      obtain ⟨hsign, hlt⟩ := Bool.and_eq_true_iff.1 hpositive
      rw [Bool.not_eq_true'] at hsign
      exact .inl ⟨_, .positive hsign hfraction hexponent (of_decide_eq_true hlt), rfl⟩
    next hpositive =>
    split
    next hnegative =>
      obtain ⟨hfront, hle⟩ := Bool.and_eq_true_iff.1 hnegative
      obtain ⟨hsign, hpos⟩ := Bool.and_eq_true_iff.1 hfront
      exact .inl ⟨_, .negative hsign hfraction hexponent (of_decide_eq_true hpos) (of_decide_eq_true hle), rfl⟩
    next hnegative =>
      refine .inr ⟨fun i hi => ?_, rfl⟩
      cases hi with
      | positive hsign _ _ hlt => exact hpositive (by rw [hsign]; exact decide_eq_true hlt)
      | negative hsign _ _ hpos hle =>
        refine hnegative ?_
        rw [hsign, Bool.true_and, Bool.and_eq_true]
        exact ⟨decide_eq_true hpos, decide_eq_true hle⟩
  next hparts =>
    refine .inr ⟨fun i hi => hparts ?_, rfl⟩
    cases hi with
    | positive _ hfraction hexponent => rw [hfraction, hexponent]; rfl
    | negative _ hfraction hexponent => rw [hfraction, hexponent]; rfl

theorem value?_eq_some_iff {value : Number} : n.value? = some value ↔ n.Denotes value := by
  rcases value?_cases n with ⟨i, hi, hvalue⟩ | ⟨hno, hvalue⟩
  · rw [hvalue]
    constructor
    · intro h
      cases h
      exact .whole hi
    · intro h
      cases h with
      | whole hj => rw [hi.unique hj]
      | real hno => exact absurd hi (hno i)
  · rw [hvalue, Option.map_eq_some_iff]
    constructor
    · intro h
      obtain ⟨x, hx, rfl⟩ := h
      obtain ⟨y, hy, rfl⟩ := real?_eq_some_iff.1 hx
      exact .real hno hy
    · intro h
      cases h with
      | whole hi => exact absurd hi (hno _)
      | real _ hy => exact ⟨_, real?_eq_some_iff.2 ⟨_, hy, rfl⟩, rfl⟩

end Numeral

/-! ## Writings -/

section

variable {α : Type} {depth : Nat} {w : Writing} {ps : List Piece}

theorem orIllFormed_eq_ok_iff {x? : Option α} {x : α} : orIllFormed x? = .ok x ↔ x? = some x := by
  cases x? with
  | none => exact ⟨nofun, nofun⟩
  | some y =>
    show Except.ok y = .ok x ↔ some y = some x
    rw [Except.ok.injEq, Option.some.injEq]

namespace Writing

theorem value_null : null.value depth = .ok .null := by
  rw [value, make]
  rfl

theorem value_bool {b : Bool} : (bool b).value depth = .ok (.bool b) := by
  rw [value, make]
  rfl

theorem value_number {n : Numeral} : (number n).value depth = (orIllFormed n.value?).map .number := by
  rw [value, make]
  rfl

theorem value_text : (text ps).value depth = (orIllFormed (Piece.text? ps)).map .text := by
  rw [value, make]
  rfl

theorem value_array {items : List Writing} :
    (array items).value (depth + 1) = (items.mapM (value depth)).map .array := by
  rw [value, make]
  rfl

def memberValue (depth : Nat) (member : List Piece × Writing) : Except Fault (String × Json) :=
  makeMember .building (value depth) member

theorem value_object {members : List (List Piece × Writing)} :
    (object members).value (depth + 1) = (members.mapM (memberValue depth)).map .object := by
  rw [value, make]
  rfl

theorem makeMember_eq_ok_iff {m : Sense α} {make : Writing → Except Fault α} {member : List Piece × Writing}
    {named : String × α} :
    makeMember m make member = .ok named ↔ m.name member.1 = .ok named.1 ∧ make member.2 = .ok named.2 := by
  unfold makeMember
  constructor
  · intro h
    obtain ⟨name, hname, h⟩ := bind_eq_ok.1 h
    obtain ⟨value, hvalue, h⟩ := bind_eq_ok.1 h
    cases h
    exact ⟨hname, hvalue⟩
  · intro h
    rw [h.1, h.2]
    rfl

theorem memberValue_eq_ok_iff {member : List Piece × Writing} {named : String × Json} :
    memberValue depth member = .ok named ↔ Spells member.1 named.1.toList ∧ member.2.value depth = .ok named.2 := by
  unfold memberValue
  rw [makeMember_eq_ok_iff, ← Piece.text?_eq_some_iff, ← orIllFormed_eq_ok_iff]
  rfl

/-- Where a writing has a value, that is what is made of it. -/
theorem value_of_denotes {x : Json} (h : w.Denotes depth x) : w.value depth = .ok x := by
  induction h with
  | null => exact value_null
  | bool => exact value_bool
  | number hn => rw [value_number, Numeral.value?_eq_some_iff.2 hn]; rfl
  | text hspells => rw [value_text, Piece.text?_eq_some_iff.2 hspells]; rfl
  | array hlength _ ih => rw [value_array, mapM_eq_ok_iff.2 ⟨hlength, ih⟩]; rfl
  | object hlength hnames _ ih =>
    have hmembers := mapM_eq_ok_iff.2 ⟨hlength, fun member hmember =>
      memberValue_eq_ok_iff.2 ⟨hnames member hmember, ih member hmember⟩⟩
    rw [value_object, hmembers]
    rfl

theorem value_eq_ok_iff {x : Json} : w.value depth = .ok x ↔ w.Denotes depth x := by
  refine ⟨fun h => ?_, value_of_denotes⟩
  induction depth using Nat.strongRecOn generalizing w x with
  | ind depth ih =>
  cases w with
  | null =>
    rw [value_null] at h
    cases h
    exact .null
  | bool b =>
    rw [value_bool] at h
    cases h
    exact .bool
  | number n =>
    rw [value_number] at h
    obtain ⟨value, hvalue, rfl⟩ := map_eq_ok.1 h
    exact .number (Numeral.value?_eq_some_iff.1 (orIllFormed_eq_ok_iff.1 hvalue))
  | text ps =>
    rw [value_text] at h
    obtain ⟨t, ht, rfl⟩ := map_eq_ok.1 h
    exact .text (Piece.text?_eq_some_iff.1 (orIllFormed_eq_ok_iff.1 ht))
  | array items =>
    cases depth with
    | zero => cases h
    | succ depth =>
      rw [value_array] at h
      obtain ⟨values, hvalues, rfl⟩ := map_eq_ok.1 h
      obtain ⟨hlength, hitems⟩ := mapM_eq_ok_iff.1 hvalues
      exact .array hlength fun item hitem => ih depth (Nat.lt_succ_self depth) (hitems item hitem)
  | object written =>
    cases depth with
    | zero => cases h
    | succ depth =>
      rw [value_object] at h
      obtain ⟨members, hvalues, rfl⟩ := map_eq_ok.1 h
      obtain ⟨hlength, hmembers⟩ := mapM_eq_ok_iff.1 hvalues
      have hmember (member : (List Piece × Writing) × String × Json) (h : member ∈ written.zip members) :=
        memberValue_eq_ok_iff.1 (hmembers member h)
      exact .object hlength (fun member h => (hmember member h).1) fun member h =>
        ih depth (Nat.lt_succ_self depth) (hmember member h).2

end Writing

theorem isText_iff {input : List UInt8} {value : Json} :
    IsText input value ↔ ∃ w rest, Writing.Written w input rest ∧ Blanks rest [] ∧ w.value nestingLimit = .ok value := by
  simp only [IsText, Writing.value_eq_ok_iff, nestingLimit]

end

end Calculator.Json
