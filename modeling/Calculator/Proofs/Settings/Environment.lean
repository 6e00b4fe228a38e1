/-
  Calculator.Proofs.Settings.Environment — variables are read as they are spelled.

  A value is read up to a separator or the end. That its spelling is shorter than the fuel is all that the reader needs
  (`value?_append`), and what it reads is spelled so (`spells_of_value?`). Items are read as soon as a single one is, so
  the lemmas on items take that as a hypothesis.

  Main statement: `entry?_eq_some_iff`.
-/

import Calculator.Proofs.Settings.Text

namespace Calculator.Settings.Environment

/-! ## Reading values -/

section

variable {α : Type} {Item : List Char → α → Prop} {item : List Char → Option (α × List Char)} {close : Char} {fuel bound : Nat}
  {s rest : List Char} {xs : List α}

/-- If items are read, rows of them are. An item that is shorter than `bound` has to be read in front of a comma and of
the bracket that closes the row. -/
theorem items?_append (hcomma : close ≠ ',') (hhead : ∀ s x, Item s x → s.head? ≠ some close)
    (hitem : ∀ s x rest, Item s x → s.length < bound → rest.head? = some ',' ∨ rest.head? = some close →
      item (s ++ rest) = some (x, rest))
    (h : Items Item close s xs) (hfuel : s.length ≤ fuel) (hbound : s.length ≤ bound) :
    items? fuel item close (s ++ rest) = some (xs, rest) := by
  induction h generalizing fuel with
  | nil =>
    obtain ⟨fuel, rfl⟩ := Nat.exists_eq_add_one.2 hfuel
    simp [items?]
  | @last s x hx hne =>
    rw [List.length_append] at hfuel hbound
    obtain ⟨fuel, rfl⟩ := Nat.exists_eq_add_one.2 (Nat.lt_of_lt_of_le (Nat.succ_pos s.length) hfuel)
    have hfirst : (s ++ [close] ++ rest).head? ≠ some close := by
      obtain ⟨c, s, rfl⟩ := List.exists_cons_of_ne_nil hne
      exact hhead (c :: s) x hx
    rw [items?, if_neg hfirst, List.append_assoc, hitem s x _ hx hbound (.inr rfl)]
    simp [hcomma]
  | @cons s tail x xs hx _ ih =>
    rw [List.length_append, List.length_cons] at hfuel hbound
    obtain ⟨fuel, rfl⟩ := Nat.exists_eq_add_one.2 (show 0 < fuel by omega)
    have hfirst : (s ++ ',' :: tail ++ rest).head? ≠ some close := by
      rcases s with _ | ⟨c, s⟩
      · exact fun he => hcomma (Option.some.inj he).symm
      · exact hhead (c :: s) x hx
    rw [items?, if_neg hfirst, List.append_assoc, hitem s x _ hx (by omega) (.inl rfl)]
    simp [ih (show tail.length ≤ fuel by omega) (by omega)]

theorem items_of_items? (hitem : ∀ s x rest, item s = some (x, rest) → ∃ front, s = front ++ rest ∧ Item front x)
    (h : items? fuel item close s = some (xs, rest)) : ∃ front, s = front ++ rest ∧ Items Item close front xs := by
  induction fuel generalizing s xs with
  | zero => cases h
  | succ fuel ih =>
    rw [items?] at h
    split at h
    · next hhead =>
      cases h
      obtain ⟨rest, rfl⟩ := List.head?_eq_some_iff.1 hhead
      exact ⟨[close], rfl, .nil⟩
    next hhead =>
    obtain ⟨⟨x, tail⟩, hread, hmore⟩ := Option.bind_eq_some_iff.1 h
    obtain ⟨front, rfl, hx⟩ := hitem _ _ _ hread
    dsimp only at hmore
    split at hmore
    · next c tail =>
      split at hmore
      · next hc =>
        obtain ⟨⟨more, rest'⟩, hrest, hend⟩ := Option.bind_eq_some_iff.1 hmore
        cases hend
        obtain ⟨back, rfl, hback⟩ := ih hrest
        exact ⟨front ++ ',' :: back, by rw [hc]; simp, .cons hx hback⟩
      split at hmore
      · next hc =>
        cases hmore
        rw [hc] at hhead ⊢
        refine ⟨front ++ [close], by simp, .last hx ?_⟩
        rintro rfl
        exact hhead rfl
      · cases hmore
    · cases hmore

end

section

variable {k s run rest : List Char} {key : String}

theorem isTrimmed_isSpace_iff {core : List Char} : IsTrimmed IsSpace s core ↔ trim isSpace s = core := by
  rw [← isTrimmed_iff]
  simp only [IsTrimmed, isSpace_iff]

theorem isKeyEnd_eq_false_iff {c : Char} : (!isKeyEnd c) ↔ ¬ IsSeparator c ∧ c ≠ '=' := by
  simp [isKeyEnd, ← isSeparator_iff]

theorem skipSpaces_equals : skipSpaces ('=' :: rest) = '=' :: rest :=
  skipSpaces_eq_self (by simp [IsSpace])

theorem not_separator_of_isSpace {c : Char} (h : IsSpace c) : ¬ IsSeparator c ∧ c ≠ '=' := by
  simp only [IsSpace, List.mem_cons, List.not_mem_nil, or_false] at h
  rcases h with rfl | rfl | rfl | rfl | rfl <;> simp [IsSeparator]

theorem keyText?_bare (hquote : s.head? ≠ some '"') : keyText? s =
    if (trim isSpace (s.takeWhile (!isKeyEnd ·))).isEmpty then none
    else some (.ofList (trim isSpace (s.takeWhile (!isKeyEnd ·))), s.dropWhile (!isKeyEnd ·)) := by
  rw [keyText?]
  rintro rest rfl
  exact hquote rfl

theorem key?_append (h : Key k key) : key? (k ++ '=' :: rest) = some (key, rest) := by
  cases h with
  | @quoted front s text back hspaces hs =>
    have hskip : skipSpaces (front ++ '"' :: s ++ '"' :: back ++ '=' :: rest) = '"' :: (s ++ '"' :: (back ++ '=' :: rest)) := by
      rw [List.append_assoc, List.append_assoc]
      exact skipSpaces_append (fun c hc => hspaces c (List.mem_append_left _ hc)) (by simp [IsSpace])
    have hback : skipSpaces (back ++ '=' :: rest) = '=' :: rest :=
      skipSpaces_append (fun c hc => hspaces c (List.mem_append_right _ hc)) (by simp [IsSpace])
    have hlen : s.length < (s ++ '"' :: (back ++ '=' :: rest)).length := by simp
    rw [key?, hskip, keyText?, quoted?_append hs [] hlen]
    simp [hback, behind?]
  | @bare s key hs htrim hne hquote =>
    obtain ⟨front, back, rfl, hdrop, hhead, hlast⟩ := htrim
    obtain ⟨c, key, rfl⟩ := List.exists_cons_of_ne_nil hne
    have hskip : skipSpaces (front ++ c :: key ++ back ++ '=' :: rest) = c :: key ++ back ++ '=' :: rest := by
      rw [List.append_assoc, List.append_assoc, ← List.append_assoc (c :: key)]
      exact skipSpaces_append (fun c hc => hdrop c (List.mem_append_left _ hc)) hhead
    have hrun : ∀ d ∈ c :: key ++ back, !isKeyEnd d := fun d hd =>
      isKeyEnd_eq_false_iff.2 (hs d (by rw [List.append_assoc]; exact List.mem_append_right _ hd))
    have hend : ('=' :: rest).head?.any (!isKeyEnd ·) = false := by simp [isKeyEnd]
    have htrim : trim isSpace (c :: key ++ back) = c :: key :=
      isTrimmed_isSpace_iff.1 ⟨[], back, rfl, fun c hc => hdrop c (List.mem_append_right _ hc), hhead, hlast⟩
    rw [key?, hskip, keyText?_bare (s := c :: key ++ back ++ '=' :: rest) hquote, takeWhile_run_append hrun hend,
      dropWhile_run_append hrun hend, htrim]
    simp [skipSpaces_equals, behind?]

theorem eq_nil_of_dropWhile_isKeyEnd {gap : List Char} (h : s.dropWhile (!isKeyEnd ·) = gap ++ rest)
    (hgap : ∀ c ∈ gap, IsSpace c) : gap = [] := by
  rcases gap with _ | ⟨c, gap⟩
  · rfl
  have hend := head?_dropWhile (p := (!isKeyEnd ·)) s
  rw [h] at hend
  have hspace := isKeyEnd_eq_false_iff.2 (not_separator_of_isSpace (hgap c List.mem_cons_self))
  exact absurd hspace (by simpa using hend)

theorem Key.of_run {front : List Char} (hfront : ∀ c ∈ front, IsSpace c) (hrun : ∀ c ∈ run, ¬ IsSeparator c ∧ c ≠ '=')
    (hhead : ∀ c ∈ run.head?, ¬ IsSpace c) (hquote : run.head? ≠ some '"') (hne : trim isSpace run ≠ []) :
    Key (front ++ run) (.ofList (trim isSpace run)) := by
  obtain ⟨before, after, hcore, hdrop, hcorehead, hcorelast⟩ := isTrimmed_isSpace_iff.2 (rfl : trim isSpace run = _)
  obtain ⟨core, htrim⟩ : ∃ core, trim isSpace run = core := ⟨_, rfl⟩
  rw [htrim] at hcore hcorehead hcorelast hne ⊢
  have hbefore : before = [] := by
    rcases before with _ | ⟨d, before⟩
    · rfl
    rw [hcore] at hhead
    exact absurd (hdrop d (List.mem_append_left _ List.mem_cons_self)) (hhead d rfl)
  subst hbefore
  obtain ⟨c, core, rfl⟩ := List.exists_cons_of_ne_nil hne
  refine .bare (fun d hd => ?_) ⟨front, after, by rw [hcore]; simp, fun d hd => ?_, hcorehead, hcorelast⟩ hne ?_
  · exact (List.mem_append.1 hd).elim (fun hd => not_separator_of_isSpace (hfront d hd)) (hrun d)
  · exact (List.mem_append.1 hd).elim (hfront d) (hdrop d)
  · rw [hcore] at hquote
    exact hquote

theorem key_of_key? (h : key? s = some (key, rest)) : ∃ k, s = k ++ '=' :: rest ∧ Key k key := by
  obtain ⟨⟨key', rest'⟩, htext, hbehind⟩ := Option.bind_eq_some_iff.1 h
  obtain ⟨rest'', hbehind, hend⟩ := Option.bind_eq_some_iff.1 hbehind
  cases hend
  obtain ⟨front, hs, hfront, hhead⟩ := exists_skipSpaces s
  obtain ⟨gap, hrest, hgap, -⟩ := exists_skipSpaces rest'
  rw [behind?_eq_some_iff.1 hbehind] at hrest
  rw [hs]
  by_cases hquote : (skipSpaces s).head? = some '"'
  · obtain ⟨s', hs'⟩ := List.head?_eq_some_iff.1 hquote
    rw [hs'] at htext ⊢
    obtain ⟨body, text, rfl, hbody, rfl⟩ := quoted_of_quoted? htext
    refine ⟨front ++ '"' :: body ++ '"' :: gap, by rw [hrest]; simp, .quoted ?_ hbody⟩
    exact fun c hc => (List.mem_append.1 hc).elim (hfront c) (hgap c)
  · rw [keyText?_bare hquote] at htext
    split at htext
    · cases htext
    next hne =>
    obtain ⟨rfl, hrest'⟩ := Prod.mk.inj (Option.some.inj htext)
    rw [hrest] at hrest'
    -- The run goes on up to the sign, so that no space is left behind it.
    obtain rfl := eq_nil_of_dropWhile_isKeyEnd hrest' hgap
    have hsplit := List.takeWhile_append_dropWhile (p := (!isKeyEnd ·)) (l := skipSpaces s)
    rw [hrest', List.nil_append] at hsplit
    generalize hrun : (skipSpaces s).takeWhile (!isKeyEnd ·) = run at hsplit hne
    have hends : ∀ c ∈ run, ¬ IsSeparator c ∧ c ≠ '=' := fun c hc => isKeyEnd_eq_false_iff.1 (of_mem_takeWhile c (hrun ▸ hc))
    have hsame : ∀ c, run.head? = some c → (skipSpaces s).head? = some c := by
      intro c hc
      rw [← hsplit, List.head?_append, hc]
      rfl
    refine ⟨front ++ run, by simp [← hsplit], ?_⟩
    exact .of_run hfront hends (fun c hc => hhead c (hsame c hc)) (fun hc => hquote (hsame _ hc)) (mt List.isEmpty_iff.2 hne)

end

/-- What may stand behind a value: nothing, a comma or a closing bracket. -/
def Ended (rest : List Char) : Prop := ∀ c ∈ rest.head?, c = ',' ∨ c = '}' ∨ c = ']'

section

variable {Spelled : List Char → Value → Prop} {read : List Char → Option (Value × List Char)} {bound : Nat}
  {s rest : List Char} {v : Value} {entry : String × Value}

theorem ended_of_head? {close : Char} (hclose : close = '}' ∨ close = ']') (h : rest.head? = some ',' ∨ rest.head? = some close) :
    Ended rest := by
  intro c hc
  rcases h with h | h
  · exact .inl (Option.some.inj (hc.symm.trans h))
  · obtain rfl := Option.some.inj (hc.symm.trans h)
    exact .inr hclose

theorem head?_key {k : List Char} {key : String} (h : Key k key) : k ≠ [] ∧ k.head? ≠ some '}' := by
  cases h with
  | @quoted front s text back hspaces =>
    rcases front with _ | ⟨c, front⟩
    · exact ⟨nofun, by simp⟩
    · refine ⟨nofun, fun he => ?_⟩
      have hc : c = '}' := Option.some.inj he
      have hspace := hspaces c (List.mem_append_left _ List.mem_cons_self)
      rw [hc] at hspace
      simp [IsSpace] at hspace
  | bare hends htrim hne =>
    obtain ⟨front, back, rfl, -⟩ := htrim
    refine ⟨by simp [hne], fun he => ?_⟩
    exact (hends '}' (List.mem_of_mem_head? he)).1 (by simp [IsSeparator])

theorem keyed?_append (hread : ∀ s v rest, Spelled s v → s.length < bound → Ended rest → read (s ++ rest) = some (v, rest))
    (h : Keyed Spelled s entry) (hbound : s.length < bound) (hrest : Ended rest) :
    keyed? read (s ++ rest) = some (entry, rest) := by
  cases h with
  | @intro k s key v hk hv =>
    rw [List.length_append, List.length_cons] at hbound
    rw [keyed?, List.append_assoc, List.cons_append, key?_append hk]
    simp [hread s v rest hv (by omega) hrest]

theorem keyed_of_keyed? (hread : ∀ s v rest, read s = some (v, rest) → ∃ front, s = front ++ rest ∧ Spelled front v)
    (h : keyed? read s = some (entry, rest)) : ∃ front, s = front ++ rest ∧ Keyed Spelled front entry := by
  obtain ⟨⟨key, tail⟩, hkey, hvalue⟩ := Option.bind_eq_some_iff.1 h
  obtain ⟨⟨v, rest'⟩, hvalue, hend⟩ := Option.bind_eq_some_iff.1 hvalue
  cases hend
  obtain ⟨k, rfl, hk⟩ := key_of_key? hkey
  obtain ⟨front, rfl, hv⟩ := hread _ _ _ hvalue
  exact ⟨k ++ '=' :: front, by simp, .intro hk hv⟩

/-- What a value that tells where it ends starts with. -/
theorem Form.head? (h : Form Spelled s v) : ∃ c, s.head? = some c ∧ ¬ IsSpace c ∧ c ≠ ']' ∧ c ≠ '}' := by
  cases h with
  | yes => exact ⟨'t', rfl, by simp [IsSpace], by decide, by decide⟩
  | no => exact ⟨'f', rfl, by simp [IsSpace], by decide, by decide⟩
  | quoted | char | list | dict => exact ⟨_, rfl, by simp [IsSpace], by decide, by decide⟩

theorem form_of_form? (hread : ∀ s v rest, read s = some (v, rest) → ∃ front, s = front ++ rest ∧ Spelled front v)
    (hspace : ∀ c ∈ s.head?, ¬ IsSpace c) (h : form? read s = some (v, rest)) :
    (∃ front, s = front ++ rest ∧ Form Spelled front v) ∨
      StartsBare s ∧ v = bare (trim isBlank (s.takeWhile (!isSeparator ·))) ∧ rest = s.dropWhile (!isSeparator ·) := by
  unfold form? at h
  split at h
  · next tail hword =>
    cases h
    exact .inl ⟨_, behind?_eq_some_iff.1 hword, .yes⟩
  next hyes =>
  split at h
  · next tail hword =>
    cases h
    exact .inl ⟨_, behind?_eq_some_iff.1 hword, .no⟩
  next hno =>
  split at h
  · obtain ⟨⟨entries, rest'⟩, hitems, hend⟩ := Option.map_eq_some_iff.1 h
    cases hend
    obtain ⟨front, rfl, hfront⟩ := items_of_items? (fun s x rest => keyed_of_keyed? hread) hitems
    exact .inl ⟨'{' :: front, rfl, .dict hfront⟩
  · obtain ⟨⟨items, rest'⟩, hitems, hend⟩ := Option.map_eq_some_iff.1 h
    cases hend
    obtain ⟨front, rfl, hfront⟩ := items_of_items? hread hitems
    exact .inl ⟨'[' :: front, rfl, .list hfront⟩
  · obtain ⟨⟨text, rest'⟩, hquoted, hend⟩ := Option.map_eq_some_iff.1 h
    cases hend
    obtain ⟨body, text, rfl, hbody, rfl⟩ := quoted_of_quoted? hquoted
    exact .inl ⟨'"' :: body ++ ['"'], by simp, .quoted hbody⟩
  · cases h
    exact .inl ⟨_, rfl, .char⟩
  · cases h
  · next hdict hlist hquote hchar hapostrophe =>
    cases h
    have hword {word : List Char} (h : ∀ rest, behind? word s = some rest → False) : ¬ word <+: s := by
      rintro ⟨rest, hs⟩
      exact h rest (behind?_eq_some_iff.2 hs.symm)
    refine .inr ⟨⟨hword hyes, hword hno, fun c hc => ⟨hspace c hc, ?_, ?_⟩⟩, rfl, rfl⟩
    · rintro rfl
      obtain ⟨rest, rfl⟩ := List.head?_eq_some_iff.1 hc
      exact hquote _ rfl
    · rintro rfl
      obtain ⟨rest, rfl⟩ := List.head?_eq_some_iff.1 hc
      exact hapostrophe _ rfl

theorem form?_append (hread : ∀ s v rest, Spelled s v → s.length < bound → Ended rest → read (s ++ rest) = some (v, rest))
    (hhead : ∀ s v, Spelled s v → s.head? ≠ some ']') (h : Form Spelled s v) (hbound : s.length ≤ bound) :
    form? read (s ++ rest) = some (v, rest) := by
  cases h with
  | yes => rfl
  | no => rfl
  | char => rfl
  | @quoted s text hs =>
    have hlen : s.length < (s ++ '"' :: rest).length := by simp
    have hread : form? read ('"' :: s ++ ['"'] ++ rest) =
        (quoted? (s ++ ['"'] ++ rest).length [] (s ++ ['"'] ++ rest)).map fun r => (.text r.1, r.2) := rfl
    rw [hread, List.append_assoc, List.singleton_append, quoted?_append hs [] hlen]
    rfl
  | @list s items hitems =>
    rw [List.length_cons] at hbound
    have hform : form? read ('[' :: s ++ rest) =
        (items? ((s ++ rest).length + 1) read ']' (s ++ rest)).map fun r => (.list r.1, r.2) := rfl
    rw [hform, items?_append (by decide) hhead
      (fun s v rest hv hlen hrest => hread s v rest hv hlen (ended_of_head? (.inr rfl) hrest)) hitems (by simp; omega) (by omega)]
    rfl
  | @dict s entries hentries =>
    rw [List.length_cons] at hbound
    have hform : form? read ('{' :: s ++ rest) =
        (items? ((s ++ rest).length + 1) (keyed? read) '}' (s ++ rest)).map fun r => (.dict r.1, r.2) := rfl
    have hhead (s : List Char) (entry : String × Value) (h : Keyed Spelled s entry) : s.head? ≠ some '}' := by
      cases h with
      | @intro k s key v hk hv =>
        obtain ⟨hne, hhead⟩ := head?_key hk
        obtain ⟨c, k, rfl⟩ := List.exists_cons_of_ne_nil hne
        exact hhead
    rw [hform, items?_append (by decide) hhead
      (fun s v rest hv hlen hrest => keyed?_append hread hv hlen (ended_of_head? (.inl rfl) hrest)) hentries (by simp; omega)
      (by omega)]
    rfl

theorem Ended.isSeparator (hrest : Ended rest) {c : Char} (h : c ∈ rest.head?) : IsSeparator c := by
  rcases hrest c h with rfl | rfl | rfl <;> simp [IsSeparator]

theorem StartsBare.of_prefix {front : List Char} (hs : StartsBare s) (h : front <+: s) : StartsBare front := by
  refine ⟨fun hyes => hs.1 (hyes.trans h), fun hno => hs.2.1 (hno.trans h), fun c hc => hs.2.2 c ?_⟩
  obtain ⟨back, rfl⟩ := h
  rw [List.head?_append, Option.mem_def.1 hc]
  rfl

/-- A word without separators is not at the front of a text if it is not before the separator. -/
theorem not_prefix_append {word : List Char} (hword : ∀ c ∈ word, ¬ IsSeparator c) (h : ¬ word <+: s) (hrest : Ended rest) :
    ¬ word <+: s ++ rest := by
  intro hsame
  rcases Nat.le_or_ge word.length s.length with hlen | hlen
  · exact h (List.prefix_of_prefix_length_le hsame (List.prefix_append s rest) hlen)
  · obtain ⟨t, rfl⟩ := List.prefix_of_prefix_length_le (List.prefix_append s rest) hsame hlen
    rcases t with _ | ⟨c, t⟩
    · exact h (by simp)
    · obtain ⟨tail, htail⟩ := (List.prefix_append_right_inj s).1 hsame
      exact hword c (by simp) (hrest.isSeparator (by rw [← htail]; rfl))

theorem form?_bare (hs : StartsBare s) (hends : ∀ c ∈ s, ¬ IsSeparator c) (hrest : Ended rest) :
    form? read (s ++ rest) = some (bare (trim isBlank s), rest) := by
  obtain ⟨hyes, hno, hstart⟩ := hs
  have hbehind {word : List Char} (hword : ∀ c ∈ word, ¬ IsSeparator c) (h : ¬ word <+: s) : behind? word (s ++ rest) = none :=
    if_neg (mt List.isPrefixOf_iff_prefix.1 (not_prefix_append hword h hrest))
  have hhead : ∀ c ∈ (s ++ rest).head?, c ≠ '{' ∧ c ≠ '[' ∧ c ≠ '"' ∧ c ≠ '\x27' := by
    intro c hc
    rcases s with _ | ⟨d, s⟩
    · rcases hrest c hc with rfl | rfl | rfl <;> decide
    · obtain rfl := Option.some.inj hc
      have hsep := hends d List.mem_cons_self
      refine ⟨?_, ?_, (hstart d rfl).2.1, (hstart d rfl).2.2⟩
      · rintro rfl
        exact hsep (by simp [IsSeparator])
      · rintro rfl
        exact hsep (by simp [IsSeparator])
  have hrun : ∀ c ∈ s, !isSeparator c := fun c hc => by simpa using mt isSeparator_iff.1 (hends c hc)
  have hend : rest.head?.any (!isSeparator ·) = false :=
    any_eq_false_iff.2 fun c hc => by simpa using isSeparator_iff.2 (hrest.isSeparator hc)
  rw [form?, hbehind (by simp [IsSeparator]) hyes, hbehind (by simp [IsSeparator]) hno]
  · dsimp only
    rw [takeWhile_run_append hrun hend, dropWhile_run_append hrun hend]
  · intro _ he
    exact (hhead '{' (by rw [he]; rfl)).1 rfl
  · intro _ he
    exact (hhead '[' (by rw [he]; rfl)).2.1 rfl
  · intro _ he
    exact (hhead '"' (by rw [he]; rfl)).2.2.1 rfl
  · intro _ _ he
    exact (hhead '\x27' (by rw [he]; rfl)).2.2.2 rfl
  · intro _ he
    exact (hhead '\x27' (by rw [he]; rfl)).2.2.2 rfl

end

/-! ## The grammar and the reader -/

section

variable {s rest : List Char} {v : Value} {fuel : Nat}

theorem Ended.not_isSpace (hrest : Ended rest) : ∀ c ∈ rest.head?, ¬ IsSpace c := fun _ hc hspace =>
  (not_separator_of_isSpace hspace).1 (hrest.isSeparator hc)

theorem Spells.head? (h : Spells s v) : s.head? ≠ some ']' := by
  have hspace {front s : List Char} (hfront : ∀ c ∈ front, IsSpace c) (hs : s.head? ≠ some ']') :
      (front ++ s).head? ≠ some ']' := by
    rcases front with _ | ⟨c, front⟩
    · exact hs
    · intro he
      have hc := hfront c List.mem_cons_self
      rw [Option.some.inj he] at hc
      simp [IsSpace] at hc
  cases h with
  | form hspaces hform =>
    obtain ⟨c, hc, -, hne, -⟩ := hform.head?
    rw [List.append_assoc]
    refine hspace (fun c hc => hspaces c (List.mem_append_left _ hc)) ?_
    rw [List.head?_append, hc]
    exact fun he => hne (Option.some.inj he)
  | bare hspaces _ hends =>
    refine hspace hspaces fun he => hends ']' (List.mem_of_mem_head? he) ?_
    simp [IsSeparator]

/-- A spelling that is shorter than the fuel is read, in front of anything that may stand behind a value. -/
theorem value?_append (h : Spells s v) (hfuel : s.length < fuel) (hrest : Ended rest) :
    value? fuel (s ++ rest) = some (v, rest) := by
  induction fuel generalizing s v rest with
  | zero => exact absurd hfuel (Nat.not_lt_zero _)
  | succ fuel ih =>
    rw [value?]
    cases h with
    | @form front s back v hspaces hform =>
      have hskip : skipSpaces (front ++ s ++ back ++ rest) = s ++ (back ++ rest) := by
        rw [List.append_assoc, List.append_assoc]
        refine skipSpaces_append (fun c hc => hspaces c (List.mem_append_left _ hc)) fun c hc => ?_
        obtain ⟨d, hd, hspace, -⟩ := hform.head?
        rw [List.head?_append, hd] at hc
        cases hc
        exact hspace
      have hlen : s.length ≤ fuel := by
        simp only [List.length_append] at hfuel
        omega
      have hback := skipSpaces_append (fun c hc => hspaces c (List.mem_append_right _ hc)) hrest.not_isSpace
      rw [hskip, form?_append (fun s v rest h => ih h) (fun s v h => h.head?) hform hlen]
      simp [hback]
    | @bare front s core v hspaces hs hends htrim hv =>
      have hskip : skipSpaces (front ++ s ++ rest) = s ++ rest := by
        rw [List.append_assoc]
        refine skipSpaces_append hspaces fun c hc => ?_
        rcases s with _ | ⟨d, s⟩
        · exact hrest.not_isSpace c hc
        · exact (hs.2.2 c hc).1
      have hback := skipSpaces_eq_self hrest.not_isSpace
      rw [hskip, form?_bare hs hends hrest, isTrimmed_iff.1 htrim, bare_iff.2 hv]
      simp [hback]

theorem spells_of_value? (h : value? fuel s = some (v, rest)) : ∃ front, s = front ++ rest ∧ Spells front v := by
  induction fuel generalizing s v rest with
  | zero => cases h
  | succ fuel ih =>
    rw [value?] at h
    obtain ⟨⟨v', rest'⟩, hform, hend⟩ := Option.map_eq_some_iff.1 h
    cases hend
    obtain ⟨front, hs, hfront, hhead⟩ := exists_skipSpaces s
    obtain ⟨back, hrest, hback, -⟩ := exists_skipSpaces rest'
    rcases form_of_form? (fun s v rest h => ih h) hhead hform with ⟨core, hcore, hform⟩ | ⟨hstart, rfl, hend⟩
    · refine ⟨front ++ core ++ back, ?_, .form (fun c hc => (List.mem_append.1 hc).elim (hfront c) (hback c)) hform⟩
      rw [List.append_assoc, List.append_assoc, ← hrest, ← hcore, ← hs]
    · have hskip : skipSpaces rest' = rest' := by
        refine dropWhile_eq_self_of_head? (any_eq_false_iff.2 fun c hc hspace => ?_)
        have hsep := any_eq_false_iff.1 (head?_dropWhile (p := (!isSeparator ·)) (skipSpaces s)) c (hend ▸ hc)
        exact (not_separator_of_isSpace (isSpace_iff.1 hspace)).1 (isSeparator_iff.1 (by simpa using hsep))
      rw [hskip]
      refine ⟨front ++ (skipSpaces s).takeWhile (!isSeparator ·), ?_, .bare hfront (hstart.of_prefix (List.takeWhile_prefix _))
        (fun c hc => ?_) (isTrimmed_iff.2 rfl) (bare_iff.1 rfl)⟩
      · rw [List.append_assoc, hend, List.takeWhile_append_dropWhile]
        exact hs
      · have hsep : !isSeparator c := of_mem_takeWhile (p := (!isSeparator ·)) c hc
        exact mt isSeparator_iff.2 (by simpa using hsep)

end

/-! ## Variables and their values -/

theorem means_iff {text : String} {v : Value} : value text = v ↔ Means text v := by
  obtain ⟨s, hs⟩ : ∃ s, trim isBlank text.toList = s := ⟨_, rfl⟩
  have htrim := isTrimmed_iff.2 hs
  have hspelled {v : Value} (h : Spells s v) : value? (s.length + 1) s = some (v, []) := by
    have hread := @value?_append s [] v _ h (Nat.lt_succ_self _) nofun
    rwa [List.append_nil] at hread
  have hvalue {v : Value} (h : Spells s v) : value text = v := by
    rw [value, hs, hspelled h]
  have hplain (h : ∀ v, ¬ Spells s v) : value text = .text (.ofList s) := by
    rw [value, hs]
    split
    · next v hread =>
      obtain ⟨front, hfront, hv⟩ := spells_of_value? hread
      rw [List.append_nil] at hfront
      exact absurd (hfront ▸ hv) (h v)
    · rfl
  constructor
  · rintro rfl
    by_cases h : ∃ v, Spells s v
    · obtain ⟨v, hv⟩ := h
      rw [hvalue hv]
      exact .spelled htrim hv
    · have h : ∀ v, ¬ Spells s v := fun v hv => h ⟨v, hv⟩
      rw [hplain h]
      exact .plain htrim h
  · intro h
    cases h with
    | spelled htrim' hv =>
      obtain rfl := (isTrimmed_iff.1 htrim').symm.trans hs
      exact hvalue hv
    | plain htrim' h =>
      obtain rfl := (isTrimmed_iff.1 htrim').symm.trans hs
      exact hplain h

theorem nest_eq_iff {v w : Value} {path : List String} : nest v path = w ↔ Nested v path w := by
  induction path generalizing w with
  | nil =>
    constructor
    · rintro rfl
      exact .here
    · intro h
      cases h
      rfl
  | cons key path ih =>
    constructor
    · rintro rfl
      exact .inside (ih.1 rfl)
    · intro h
      cases h with
      | inside h => rw [nest, ih.2 h]

theorem keyPath?_eq_some_iff {name key : String} {path : List String} :
    keyPath? name = some (key :: path) ↔ Names name key path := by
  have hlower : name.toLower.toList = name.toList.map Char.toLower := String.toList_map
  have hname : name.toLower = "calc_" ++ ".".intercalate (key :: path) ↔
      name.toList.map Char.toLower = "calc_".toList ++ ['.'].intercalate ((key :: path).map String.toList) := by
    rw [← String.toList_inj, String.toList_append, String.toList_intercalate, hlower]
    rfl
  constructor
  · intro h
    obtain ⟨s, hs, hpath⟩ := Option.bind_eq_some_iff.1 h
    dsimp only at hpath
    split at hpath
    · cases hpath
    next hempty =>
    have hparts : (s.splitOn '.') = (key :: path).map String.toList := by
      rw [← Option.some.inj hpath, List.map_map]
      simp [Function.comp_def]
    refine ⟨hname.2 ?_, fun part hpart => ⟨?_, ?_⟩⟩
    · rw [← hparts, List.intercalate_splitOn]
      exact behind?_eq_some_iff.1 hs
    · rintro rfl
      refine hempty (List.contains_iff_mem.2 ?_)
      rw [hparts]
      exact List.mem_map.2 ⟨"", hpart, rfl⟩
    · refine not_mem_of_mem_splitOn (s := s) ?_
      rw [hparts]
      exact List.mem_map_of_mem hpart
  · intro h
    have hsplit : (['.'].intercalate ((key :: path).map String.toList)).splitOn '.' = (key :: path).map String.toList := by
      refine List.splitOn_intercalate '.' (fun part hpart => ?_) (by simp)
      obtain ⟨text, htext, rfl⟩ := List.mem_map.1 hpart
      exact (h.parts text htext).2
    have hempty : ¬ ((key :: path).map String.toList).contains [] := by
      rw [List.contains_iff_mem]
      intro hmem
      obtain ⟨text, htext, he⟩ := List.mem_map.1 hmem
      exact (h.parts text htext).1 (String.toList_eq_nil_iff.1 he)
    rw [keyPath?, behind?_eq_some_iff.2 (hname.1 h.spelling)]
    simp only [Option.bind_eq_bind, Option.bind_some, hsplit, if_neg hempty, List.map_map]
    simp [Function.comp_def]

theorem entry?_eq_some_iff {name text key : String} {v : Value} : entry? name text = some (key, v) ↔ Says name text key v := by
  constructor
  · intro h
    obtain ⟨parts, hparts, hentry⟩ := Option.bind_eq_some_iff.1 h
    split at hentry
    · cases hentry
      exact .intro (keyPath?_eq_some_iff.1 hparts) (means_iff.1 rfl) (nest_eq_iff.1 rfl)
    · cases hentry
  · intro h
    cases h with
    | intro hname hmeans hnested =>
      rw [Environment.entry?.eq_def, keyPath?_eq_some_iff.2 hname, means_iff.2 hmeans]
      simp [nest_eq_iff.2 hnested]

end Calculator.Settings.Environment
