/-
  Calculator.Proofs.Directive — what texts ask for, and how it is read from them.

  `Asks` tells by the rules which level a text asks for: its parts between commas are directives, or some of them are
  (`IsDirective`), and of those that apply to the program the last of the narrowest decides (`Selects`).

  Main statements: `ofText?_eq_some_iff` for a text of which every part has to be a directive, and `ofText_eq_iff` for
  one in which the others are passed over.
-/

import Calculator.Journal.Directive
import Calculator.Proofs.Run

namespace Calculator.Journal

/-- Levels in the order of what they show: nothing at all, and then errors, warnings and so on. -/
def Filter.rank : Filter → Nat
  | none => 0
  | some l => l.verbosity

def Filter.name : Filter → String
  | none => "off"
  | some .error => "error"
  | some .warn => "warn"
  | some .info => "info"
  | some .debug => "debug"
  | some .trace => "trace"

/-! ## The rules -/

/-- The name of a level in letters of any case, or its number. -/
def IsName (f : Filter) (t : List Char) : Prop := t.map Char.toLower = f.name.toList ∨ t = f.rank.repr.toList

/-- A text for a target. The name of a level stands for all targets. -/
inductive IsTarget (t : List Char) : Option (List Char) → Prop
  | all {f : Filter} : IsName f t → IsTarget t none
  | narrow : t ≠ [] → (∀ c ∈ t, c.isAlphanum ∨ c ∈ ['_', ':', '-'] ∨ 128 ≤ c.toNat) → (∀ f, ¬ IsName f t) →
      IsTarget t (some t)

inductive IsDirective : List Char → Directive → Prop
  | level {t : List Char} {f : Filter} : IsName f t → IsDirective t ⟨none, f⟩
  | target {t : List Char} : IsTarget t (some t) → IsDirective t ⟨some t, some .trace⟩
  | equals {t : List Char} {target : Option (List Char)} : IsTarget t target → IsDirective (t ++ ['=']) ⟨target, some .trace⟩
  | both {t level : List Char} {target : Option (List Char)} {f : Filter} : IsTarget t target → IsName f level →
      IsDirective (t ++ '=' :: level) ⟨target, f⟩

/-- The parts of a text between its commas, without the empty ones. -/
inductive IsCutAtCommas (text : String) : List (List Char) → Prop
  | intro {all : List (List Char)} : text.toList = [','].intercalate all → all ≠ [] → (∀ t ∈ all, ',' ∉ t) →
      IsCutAtCommas text (all.filter (!·.isEmpty))

inductive Among : List (List Char) → List Directive → Prop
  | nil : Among [] []
  | keep {t : List Char} {ts : List (List Char)} {d : Directive} {ds : List Directive} :
      IsDirective t d → Among ts ds → Among (t :: ts) (d :: ds)
  | pass {t : List Char} {ts : List (List Char)} {ds : List Directive} :
      (∀ d, ¬ IsDirective t d) → Among ts ds → Among (t :: ts) ds

/-- The target is how the name of the program starts. -/
def Directive.Applies (d : Directive) : Prop := ∀ t ∈ d.target, t <+: "calculatrice_serveur".toList

inductive Selects (ds : List Directive) : Filter → Prop
  | empty : ds = [] → Selects ds (some .error)
  | silent : ds ≠ [] → (∀ d ∈ ds, ¬ d.Applies) → Selects ds none
  | narrowest {front back : List Directive} {d : Directive} : ds = front ++ d :: back → d.Applies →
      (∀ e ∈ front, e.Applies → e.weight ≤ d.weight) → (∀ e ∈ back, e.Applies → e.weight < d.weight) → Selects ds d.filter

inductive Asks (text : String) : Filter → Prop
  | intro {ts : List (List Char)} {ds : List Directive} {f : Filter} : IsCutAtCommas text ts → Among ts ds → Selects ds f →
      Asks text f

def IsReadable (text : String) : Prop := ∀ ts, IsCutAtCommas text ts → ∀ t ∈ ts, ∃ d, IsDirective t d

/-! ## Levels -/

section

variable {t s : List Char} {c d : Char} {f : Filter}

/-- What changes in lower case is a letter, before and after. -/
theorem toLower_cases (c : Char) : c.toLower = c ∨ c.isAlpha ∧ c.toLower.isAlpha := by
  have hupper : ∀ n < 91, 65 ≤ n → (Char.ofNat n).toLower.isAlpha := by decide
  by_cases h : c.isUpper
  · have hbounds : 65 ≤ c.toNat ∧ c.toNat ≤ 90 := of_decide_eq_true h
    have halpha := hupper c.toNat (by omega) hbounds.1
    rw [Char.ofNat_toNat] at halpha
    exact .inr ⟨Bool.or_eq_true_iff.2 (.inl h), halpha⟩
  · exact .inl (dif_neg fun hc => h (decide_eq_true hc))

theorem map_toLower (t : List Char) : (String.ofList t).map Char.toLower = .ofList (t.map Char.toLower) := by
  rw [← String.toList_inj, String.toList_map, String.toList_ofList, String.toList_ofList]

theorem eq_of_map_toLower (hd : ¬ d.isAlpha) (h : t.map Char.toLower = [d]) : t = [d] := by
  obtain ⟨c, rfl, rfl⟩ := List.map_eq_singleton_iff.1 h
  rcases toLower_cases c with he | he
  · rw [he]
  · exact absurd he.2 hd

theorem ofName?_eq_some_iff : Filter.ofName? (.ofList t) = some f ↔ IsName f t := by
  rw [Filter.ofName?, map_toLower]
  constructor
  · intro h
    have hword {w : String} (h : String.ofList (t.map Char.toLower) = w) : t.map Char.toLower = w.toList := by
      rw [← h, String.toList_ofList]
    have hdigit {d : Char} (hd : ¬ d.isAlpha) (h : String.ofList (t.map Char.toLower) = .ofList [d]) : t = [d] :=
      eq_of_map_toLower hd (by simpa using hword h)
    -- Of each level the name stands first, and then the number.
    split at h
    iterate 6
      · next he =>
        cases h
        exact .inl (hword he)
      · next he =>
        cases h
        exact .inr (hdigit (by decide) he)
    · cases h
  · intro h
    rcases h with h | h
    · rw [h]
      rcases f with _ | l
      · rfl
      · cases l <;> rfl
    · rw [h]
      rcases f with _ | l
      · rfl
      · cases l <;> rfl

theorem IsName.ne_nil (h : IsName f t) : t ≠ [] := by
  rintro rfl
  rcases f with _ | l
  · rcases h with h | h <;> cases h
  · cases l <;> rcases h with h | h <;> cases h

theorem IsName.isAlphanum (h : IsName f t) : ∀ c ∈ t, c.isAlphanum := by
  have hname : f.name.toList.all Char.isAlpha := by
    rcases f with _ | l
    · decide
    · cases l <;> decide
  have hrank : f.rank.repr.toList.all Char.isDigit := by
    rcases f with _ | l
    · decide
    · cases l <;> decide
  intro c hc
  rcases h with h | h
  · have halpha := List.all_eq_true.1 hname c.toLower (h ▸ List.mem_map_of_mem hc)
    rcases toLower_cases c with he | he
    · rw [he] at halpha
      simp [Char.isAlphanum, halpha]
    · simp [Char.isAlphanum, he.1]
  · simp [Char.isAlphanum, List.all_eq_true.1 hrank c (h ▸ hc)]

end

/-! ## Directives -/

section

variable {t s level : List Char} {target : Option (List Char)} {d : Directive} {f : Filter}

theorem isTargetChar_iff {c : Char} : Directive.isTargetChar c ↔ c.isAlphanum ∨ c ∈ ['_', ':', '-'] ∨ 128 ≤ c.toNat := by
  simp [Directive.isTargetChar, or_assoc]

theorem IsTarget.isRun (h : IsTarget t target) : t ≠ [] ∧ ∀ c ∈ t, Directive.isTargetChar c := by
  cases h with
  | all hname => exact ⟨hname.ne_nil, fun c hc => isTargetChar_iff.2 (.inl (hname.isAlphanum c hc))⟩
  | narrow hne hchars => exact ⟨hne, fun c hc => isTargetChar_iff.2 (hchars c hc)⟩

/-- The filter that a text for a target stands for if no level follows. -/
inductive Alone (t : List Char) : Option (List Char) → Filter → Prop
  | all {f : Filter} : IsName f t → Alone t none f
  | narrow : IsTarget t (some t) → Alone t (some t) (some .trace)

/-- A directive is read from its target and what stands behind that. -/
theorem ofText?_append (h : Alone t target f) (hs : s.head?.any Directive.isTargetChar = false) :
    Directive.ofText? (t ++ s) = Directive.behind? target f s := by
  have hrun : t ≠ [] ∧ ∀ c ∈ t, Directive.isTargetChar c := by
    cases h with
    | all hname => exact (IsTarget.all hname).isRun
    | narrow htarget => exact htarget.isRun
  rw [Directive.ofText?, takeWhile_run_append hrun.2 hs, dropWhile_run_append hrun.2 hs, if_neg (by simpa using hrun.1)]
  cases h with
  | all hname => rw [ofName?_eq_some_iff.2 hname]
  | narrow htarget =>
    cases htarget with
    | narrow hne hchars hno =>
      cases hname : Filter.ofName? (.ofList t) with
      | some f => exact absurd (ofName?_eq_some_iff.1 hname) (hno f)
      | none => rfl

theorem Alone.isDirective (h : Alone t target f) : IsDirective t ⟨target, f⟩ ∧ IsTarget t target := by
  cases h with
  | all hname => exact ⟨.level hname, .all hname⟩
  | narrow htarget => exact ⟨.target htarget, htarget⟩

theorem IsTarget.exists_alone (h : IsTarget t target) : ∃ f, Alone t target f := by
  cases h with
  | all hname => exact ⟨_, .all hname⟩
  | narrow hne hchars hno => exact ⟨_, .narrow (.narrow hne hchars hno)⟩

theorem exists_alone (hne : t ≠ []) (hchars : ∀ c ∈ t, Directive.isTargetChar c) : ∃ target f, Alone t target f := by
  by_cases h : ∃ f, IsName f t
  · obtain ⟨f, hname⟩ := h
    exact ⟨none, f, .all hname⟩
  · exact ⟨some t, _, .narrow (.narrow hne (fun c hc => isTargetChar_iff.1 (hchars c hc)) fun f hname => h ⟨f, hname⟩)⟩

theorem directive_eq_some_iff : Directive.ofText? s = some d ↔ IsDirective s d := by
  constructor
  · intro h
    have hs := List.takeWhile_append_dropWhile (p := Directive.isTargetChar) (l := s)
    by_cases hne : s.takeWhile Directive.isTargetChar = []
    · rw [Directive.ofText?, hne] at h
      cases h
    obtain ⟨target, f, halone⟩ := exists_alone hne of_mem_takeWhile
    have hread := ofText?_append halone (head?_dropWhile s)
    rw [hs, h] at hread
    rw [← hs]
    unfold Directive.behind? at hread
    split at hread
    · next hrest =>
      cases hread
      rw [hrest, List.append_nil]
      exact halone.isDirective.1
    · next hrest =>
      cases hread
      rw [hrest]
      exact .equals halone.isDirective.2
    · next hrest =>
      obtain ⟨f, hname, rfl⟩ := Option.map_eq_some_iff.1 hread.symm
      rw [hrest]
      exact .both halone.isDirective.2 (ofName?_eq_some_iff.1 hname)
    · cases hread
  · intro h
    cases h with
    | @level _ f hname =>
      have hread := @ofText?_append s [] none f (.all hname) rfl
      rwa [List.append_nil] at hread
    | target htarget =>
      have hread := @ofText?_append s [] (some s) _ (.narrow htarget) rfl
      rwa [List.append_nil] at hread
    | equals htarget =>
      obtain ⟨f, halone⟩ := htarget.exists_alone
      exact ofText?_append halone rfl
    | @both t level target f htarget hname =>
      obtain ⟨g, halone⟩ := htarget.exists_alone
      obtain ⟨c, level, rfl⟩ := List.exists_cons_of_ne_nil hname.ne_nil
      rw [ofText?_append halone rfl]
      show (Filter.ofName? (.ofList (c :: level))).map _ = _
      rw [ofName?_eq_some_iff.2 hname]
      rfl

end

/-! ## Selecting -/

section

variable {ds : List Directive} {d : Directive} {f : Filter}

theorem applies_iff : d.applies ↔ d.Applies := by
  rw [Directive.applies, Directive.Applies]
  cases d.target with
  | none => exact ⟨fun _ => nofun, fun _ => rfl⟩
  | some t =>
    constructor
    · intro h t' ht
      cases ht
      exact List.isPrefixOf_iff_prefix.1 h
    · intro h
      exact List.isPrefixOf_iff_prefix.2 (h t rfl)

theorem strongest?_eq_none_iff : Directive.strongest? ds = none ↔ ∀ d ∈ ds, ¬ d.Applies := by
  induction ds with
  | nil => simp [Directive.strongest?]
  | cons d ds ih =>
    rw [Directive.strongest?, List.forall_mem_cons, ← ih, ← applies_iff]
    cases Directive.strongest? ds with
    | none => simp
    | some e =>
      dsimp only
      split <;> simp

theorem strongest?_cons_eq_some_iff {first : Directive} : Directive.strongest? (first :: ds) = some d ↔
    (first = d ∧ d.Applies ∧ ∀ e, Directive.strongest? ds = some e → e.weight < d.weight) ∨
      Directive.strongest? ds = some d ∧ (first.Applies → first.weight ≤ d.weight) := by
  rw [Directive.strongest?, ← applies_iff, ← applies_iff]
  cases Directive.strongest? ds with
  | none =>
    dsimp only
    split
    · next happlies =>
      constructor
      · intro h
        cases h
        exact .inl ⟨rfl, happlies, nofun⟩
      · intro h
        rcases h with ⟨rfl, -⟩ | ⟨⟨⟩, -⟩
        rfl
    · next hno =>
      constructor
      · nofun
      · intro h
        rcases h with ⟨rfl, happlies, -⟩ | ⟨⟨⟩, -⟩
        exact absurd happlies hno
  | some e =>
    simp only [Bool.and_eq_true, decide_eq_true_eq]
    split
    · next hfirst =>
      constructor
      · intro h
        cases h
        refine .inl ⟨rfl, hfirst.1, ?_⟩
        intro e he
        cases he
        exact hfirst.2
      · intro h
        rcases h with ⟨rfl, -⟩ | ⟨⟨⟩, h⟩
        · rfl
        · exact absurd (h hfirst.1) (Nat.not_le.2 hfirst.2)
    · next hfirst =>
      constructor
      · intro h
        cases h
        exact .inr ⟨rfl, fun happlies => Nat.not_lt.1 fun hlt => hfirst ⟨happlies, hlt⟩⟩
      · intro h
        rcases h with ⟨rfl, happlies, h⟩ | ⟨h, -⟩
        · exact absurd ⟨happlies, h e rfl⟩ hfirst
        · exact h

theorem strongest?_eq_some_iff : Directive.strongest? ds = some d ↔
    ∃ front back, ds = front ++ d :: back ∧ d.Applies ∧ (∀ e ∈ front, e.Applies → e.weight ≤ d.weight) ∧
      ∀ e ∈ back, e.Applies → e.weight < d.weight := by
  induction ds generalizing d with
  | nil =>
    constructor
    · nofun
    · intro h
      obtain ⟨front, back, h, -⟩ := h
      simp at h
  | cons first ds ih =>
    rw [strongest?_cons_eq_some_iff]
    constructor
    · intro h
      rcases h with ⟨rfl, happlies, hrest⟩ | ⟨hrest, hfirst⟩
      · refine ⟨[], ds, rfl, happlies, nofun, fun x hx ha => ?_⟩
        cases he : Directive.strongest? ds with
        | none => exact absurd ha (strongest?_eq_none_iff.1 he x hx)
        | some e =>
          have hlt := hrest e he
          obtain ⟨front, back, rfl, -, hfront, hback⟩ := ih.1 he
          rcases List.mem_append.1 hx with hx | hx
          · exact Nat.lt_of_le_of_lt (hfront x hx ha) hlt
          rcases List.mem_cons.1 hx with rfl | hx
          · exact hlt
          · exact Nat.lt_trans (hback x hx ha) hlt
      · obtain ⟨front, back, rfl, happlies, hfront, hback⟩ := ih.1 hrest
        exact ⟨first :: front, back, rfl, happlies, List.forall_mem_cons.2 ⟨hfirst, hfront⟩, hback⟩
    · intro h
      obtain ⟨front, back, hds, happlies, hfront, hback⟩ := h
      rcases front with _ | ⟨_, front⟩
      · cases hds
        refine .inl ⟨rfl, happlies, fun e he => ?_⟩
        obtain ⟨front, back, rfl, happlies, -⟩ := ih.1 he
        exact hback e (by simp) happlies
      · cases hds
        rw [List.forall_mem_cons] at hfront
        exact .inr ⟨ih.2 ⟨front, back, rfl, happlies, hfront.2, hback⟩, hfront.1⟩

theorem filterOf_eq_iff : Directive.filterOf ds = f ↔ Selects ds f := by
  constructor
  · rintro rfl
    rcases ds with _ | ⟨first, ds⟩
    · exact .empty rfl
    rw [Directive.filterOf, if_neg (by simp)]
    cases h : Directive.strongest? (first :: ds) with
    | none => exact .silent nofun (strongest?_eq_none_iff.1 h)
    | some d =>
      obtain ⟨front, back, hds, happlies, hfront, hback⟩ := strongest?_eq_some_iff.1 h
      exact .narrowest hds happlies hfront hback
  · intro h
    cases h with
    | empty h =>
      rw [h]
      rfl
    | silent hne h => rw [Directive.filterOf, if_neg (by simpa using hne), strongest?_eq_none_iff.2 h, Option.bind_none]
    | @narrowest front back d hds happlies hfront hback =>
      have hne : ds ≠ [] := by
        rw [hds]
        simp
      rw [Directive.filterOf, if_neg (by simpa using hne), strongest?_eq_some_iff.2 ⟨front, back, hds, happlies, hfront, hback⟩,
        Option.bind_some]

end

/-! ## Texts -/

section

variable {ts : List (List Char)} {ds : List Directive} {text : String} {f : Filter}

theorem among_iff : ts.filterMap Directive.ofText? = ds ↔ Among ts ds := by
  induction ts generalizing ds with
  | nil =>
    constructor
    · rintro rfl
      exact .nil
    · intro h
      cases h
      rfl
  | cons t ts ih =>
    cases h : Directive.ofText? t with
    | none =>
      have hno (d : Directive) : ¬ IsDirective t d := fun hd => by
        rw [directive_eq_some_iff.2 hd] at h
        cases h
      rw [List.filterMap_cons_none h, ih]
      constructor
      · exact .pass hno
      · intro hamong
        cases hamong with
        | keep hd => exact absurd hd (hno _)
        | pass _ hamong => exact hamong
    | some d =>
      have hd := directive_eq_some_iff.1 h
      rw [List.filterMap_cons_some h]
      constructor
      · rintro rfl
        exact .keep hd (ih.1 rfl)
      · intro hamong
        cases hamong with
        | keep hd' hamong =>
          rw [ih.2 hamong, Option.some.inj (h.symm.trans (directive_eq_some_iff.2 hd'))]
        | pass hno => exact absurd hd (hno d)

/-- All of a list is read just if each item is, and then in their order. -/
theorem mapM_eq_some_iff : ts.mapM Directive.ofText? = some ds ↔
    (∀ t ∈ ts, ∃ d, Directive.ofText? t = some d) ∧ ts.filterMap Directive.ofText? = ds := by
  induction ts generalizing ds with
  | nil => simp
  | cons t ts ih =>
    rw [List.mapM_cons, List.forall_mem_cons]
    cases h : Directive.ofText? t with
    | none => simp
    | some d =>
      rw [List.filterMap_cons_some h, Option.bind_eq_bind, Option.bind_some, Option.bind_eq_bind, Option.bind_eq_some_iff]
      simp only [ih]
      constructor
      · rintro ⟨ds, ⟨hall, rfl⟩, hds⟩
        exact ⟨⟨⟨d, rfl⟩, hall⟩, Option.some.inj hds⟩
      · rintro ⟨⟨-, hall⟩, rfl⟩
        exact ⟨_, ⟨hall, rfl⟩, rfl⟩

theorem isCutAtCommas_iff : parts text = ts ↔ IsCutAtCommas text ts := by
  constructor
  · rintro rfl
    exact .intro (List.intercalate_splitOn ',').symm (List.splitOn_ne_nil ',' _) fun t => not_mem_of_mem_splitOn
  · intro h
    cases h with
    | intro htext hne hcommas => rw [parts, htext, List.splitOn_intercalate ',' hcommas hne]

theorem ofText_eq_iff : Filter.ofText text = f ↔ Asks text f := by
  constructor
  · rintro rfl
    exact .intro (isCutAtCommas_iff.1 rfl) (among_iff.1 rfl) (filterOf_eq_iff.1 rfl)
  · intro h
    cases h with
    | intro hcut hamong hselects => rw [Filter.ofText, isCutAtCommas_iff.2 hcut, among_iff.2 hamong, filterOf_eq_iff.2 hselects]

theorem isReadable_iff : IsReadable text ↔ ∀ t ∈ parts text, ∃ d, Directive.ofText? t = some d := by
  simp only [directive_eq_some_iff]
  constructor
  · intro h
    exact h _ (isCutAtCommas_iff.1 rfl)
  · intro h ts hcut
    rwa [← isCutAtCommas_iff.2 hcut]

/-- A text that is readable asks for the same level, whether or not all of it has to be. -/
theorem ofText?_eq_some_iff : Filter.ofText? text = some f ↔ IsReadable text ∧ Asks text f := by
  rw [isReadable_iff, ← ofText_eq_iff, Filter.ofText?, Filter.ofText, Option.map_eq_some_iff]
  simp only [mapM_eq_some_iff]
  constructor
  · rintro ⟨ds, ⟨hall, rfl⟩, rfl⟩
    exact ⟨hall, rfl⟩
  · rintro ⟨hall, rfl⟩
    exact ⟨_, ⟨hall, rfl⟩, rfl⟩

theorem ofText?_eq_none_iff : Filter.ofText? text = none ↔ ¬ IsReadable text := by
  rw [Option.eq_none_iff_forall_ne_some]
  constructor
  · intro h hread
    exact h _ (ofText?_eq_some_iff.2 ⟨hread, ofText_eq_iff.1 rfl⟩)
  · intro h f hsome
    exact h (ofText?_eq_some_iff.1 hsome).1

theorem ofText?_name (f : Filter) : Filter.ofText? f.name = some f := by
  rcases f with _ | l
  · decide +kernel
  · cases l <;> decide +kernel

end

end Calculator.Journal
