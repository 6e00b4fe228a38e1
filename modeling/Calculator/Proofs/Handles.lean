/-
  Calculator.Proofs.Handles — what the handles of shared memories read in the course of a run.

  Which handles share a memory is told by the operations and their answers alone: each handle is
  linked to the one it was made from (`Derived`), and two handles share a memory if such links
  connect them (`Shares`). At every place of a run that is the same as having the same memory in the
  table (`shares_iff`), since handles keep their memory and a fresh one gets a number not used before.
  What a memory holds is then what was written last through any of its handles (`lastWritten_after`).

  Main statement: `memoryLaw`, over every run of operations.
-/

import Mathlib.Logic.Relation
import Calculator.Proofs.Routers

namespace Calculator.Handles

/-! ## The law -/

def answers (operations : List Operation) : List Answer := (initial.run operations).1

def after (operations : List Operation) : Handles := (initial.run operations).2

def Operation.handle? : Operation → Option Nat
  | .calculate h _ | .greeting h | .read h | .write h _ | .shared h => some h
  | .fresh => none

section

variable (operations : List Operation)

/-- The handle is there from the start, or was made in front of this place. -/
def Known (place handle : Nat) : Prop :=
  handle = 0 ∨ ∃ j < place, (answers operations)[j]? = some (.handle handle)

def Derived (handle handle' : Nat) : Prop :=
  ∃ i : Nat, operations[i]? = some (.shared handle) ∧ (answers operations)[i]? = some (.handle handle')

/-- The handles are connected by handles made from one another. -/
def Shares (handle handle' : Nat) : Prop := Relation.EqvGen (Derived operations) handle handle'

/-- At this place the text is written through the handle: as it is, or as the result of a calculation. -/
def Writes (place handle : Nat) (text : String) : Prop :=
  operations[place]? = some (.write handle text) ∧ (answers operations)[place]? = some .written ∨
    ∃ expression, operations[place]? = some (.calculate handle expression) ∧
      (answers operations)[place]? = some (.result (.ok text))

def WritesTo (place handle : Nat) (text : String) : Prop :=
  ∃ h, Shares operations h handle ∧ Writes operations place h text

/-- What was written last in front of this place through any handle that shares its memory with this one. -/
def LastWritten (place handle : Nat) : Option String → Prop
  | none => ∀ j < place, ∀ text, ¬ WritesTo operations j handle text
  | some text => ∃ j < place, WritesTo operations j handle text ∧
      ∀ k, j < k → k < place → ∀ text', ¬ WritesTo operations k handle text'

/-- What is answered to operations in any order on any handles. -/
structure MemoryLaw : Prop where
  /-- Each handle that is asked for is a new one. -/
  created : ∀ i, (operations[i]? = some .fresh ∨ ∃ h, operations[i]? = some (.shared h) ∧ Known operations i h) →
    ∃ n, (answers operations)[i]? = some (.handle n) ∧ ¬ Known operations i n
  /-- A handle reads what was written last to its memory. -/
  read : ∀ i h, operations[i]? = some (.read h) → Known operations i h →
    ∃ last, LastWritten operations i h last ∧ (answers operations)[i]? = some (.last last)
  /-- It greets with that text, or with a welcome. -/
  greeting : ∀ i h, operations[i]? = some (.greeting h) → Known operations i h →
    LastWritten operations i h none ∧ (answers operations)[i]? =
        some (.greeting "Welcome to the calculator server. Send a POST request to start working.") ∨
      ∃ text, LastWritten operations i h (some text) ∧
        (answers operations)[i]? = some (.greeting ("Last correct result: " ++ text))
  /-- A text is written through any handle there is. -/
  written : ∀ i h text, operations[i]? = some (.write h text) → Known operations i h →
    (answers operations)[i]? = some .written
  /-- A calculation is answered from its expression alone. -/
  calculated : ∀ i h expression, operations[i]? = some (.calculate h expression) → Known operations i h →
    (answers operations)[i]? = some (.result (resultText expression))
  /-- One that fails changes nothing. -/
  failed : ∀ i h expression e, operations[i]? = some (.calculate h expression) →
    (answers operations)[i]? = some (.result (.error e)) →
    after (operations.take (i + 1)) = after (operations.take i)
  /-- An operation changes what a handle reads only if the two share their memory. -/
  separate : ∀ i operation h, operations[i]? = some operation → Known operations i h →
    (∀ h', operation.handle? = some h' → ¬ Shares operations h' h) →
    ((after (operations.take (i + 1))).perform (.read h)).1 = ((after (operations.take i)).perform (.read h)).1

end

/-! ## One operation -/

variable {k : Handles} {handle memory : Nat}

theorem withMemory_of_some (h : k.memoryOf[handle]? = some memory) (go : Nat → Answer × Handles) :
    k.withMemory handle go = go memory := by
  rw [withMemory, h]

theorem withMemory_of_none (h : k.memoryOf[handle]? = none) (go : Nat → Answer × Handles) :
    k.withMemory handle go = (.unknownHandle, k) := by
  rw [withMemory, h]

/-- What one operation does: it is answered, and leaves these handles. -/
inductive Effect (k : Handles) : Operation → Answer → Handles → Prop
  | fresh : Effect k .fresh (.handle k.memoryOf.length)
      ⟨k.memoryOf ++ [k.memories], k.memories + 1, update k.services k.memories .fresh⟩
  | shared {h m : Nat} : k.memoryOf[h]? = some m →
      Effect k (.shared h) (.handle k.memoryOf.length) { k with memoryOf := k.memoryOf ++ [m] }
  | written {h m : Nat} {text : String} : k.memoryOf[h]? = some m →
      Effect k (.write h text) .written { k with services := update k.services m ⟨some text⟩ }
  | calculated {h m : Nat} {expression text : String} : k.memoryOf[h]? = some m → resultText expression = .ok text →
      Effect k (.calculate h expression) (.result (.ok text)) { k with services := update k.services m ⟨some text⟩ }
  /-- Nothing changes. -/
  | kept {operation : Operation} {answer : Answer} : (∀ n, answer ≠ .handle n) → answer ≠ .written →
      (∀ text, answer ≠ .result (.ok text)) → Effect k operation answer k

theorem effect_perform (k : Handles) (operation : Operation) :
    Effect k operation (k.perform operation).1 (k.perform operation).2 := by
  -- an operation on a handle that is not there changes nothing, any other goes on with its memory
  have unknown (go : Nat → Answer × Handles) (handle : Nat)
      (hgo : ∀ m, k.memoryOf[handle]? = some m → Effect k operation (go m).1 (go m).2) :
      Effect k operation (k.withMemory handle go).1 (k.withMemory handle go).2 := by
    cases h : k.memoryOf[handle]? with
    | none =>
      rw [withMemory_of_none h]
      exact .kept nofun nofun nofun
    | some m =>
      rw [withMemory_of_some h]
      exact hgo m h
  cases operation with
  | fresh => exact .fresh
  | shared h => exact unknown _ h fun m hm => .shared hm
  | greeting h => exact unknown _ h fun m hm => .kept nofun nofun nofun
  | read h => exact unknown _ h fun m hm => .kept nofun nofun nofun
  | write h text => exact unknown _ h fun m hm => .written hm
  | calculate h expression =>
    refine unknown _ h fun m hm => ?_
    unfold Service.calculate
    cases hr : resultText expression with
    | ok text => exact .calculated hm hr
    | error e =>
      show Effect k _ (.result (.error e)) { k with services := update k.services m (k.services m) }
      rw [update_eq_self]
      exact .kept nofun nofun nofun

/-- A handle keeps its memory. -/
theorem memoryOf_perform (k : Handles) (operation : Operation) : k.memoryOf <+: (k.perform operation).2.memoryOf := by
  have h := effect_perform k operation
  generalize (k.perform operation).1 = answer, (k.perform operation).2 = k' at h
  cases h with
  | fresh => exact List.prefix_append _ _
  | shared => exact List.prefix_append _ _
  | written => exact List.prefix_rfl
  | calculated => exact List.prefix_rfl
  | kept => exact List.prefix_rfl

/-! ## Parts of a run -/

theorem run_append (k : Handles) (xs ys : List Operation) :
    k.run (xs ++ ys) = ((k.run xs).1 ++ ((k.run xs).2.run ys).1, ((k.run xs).2.run ys).2) := by
  induction xs generalizing k with
  | nil => rfl
  | cons x xs ih => simp only [List.cons_append, run, ih]

theorem length_run (k : Handles) (xs : List Operation) : (k.run xs).1.length = xs.length := by
  induction xs generalizing k with
  | nil => rfl
  | cons x xs ih => simp only [run, List.length_cons, ih]

variable {operations : List Operation} {operation : Operation} {i : Nat}

theorem after_take_succ (h : operations[i]? = some operation) :
    after (operations.take (i + 1)) = ((after (operations.take i)).perform operation).2 := by
  have htake : operations.take (i + 1) = operations.take i ++ [operation] := by
    rw [List.take_add_one, h]
    rfl
  rw [after, htake, run_append]
  rfl

theorem after_take_succ_of_none (h : operations[i]? = none) :
    after (operations.take (i + 1)) = after (operations.take i) := by
  rw [List.take_add_one, h]
  exact congrArg after (List.append_nil _)

theorem getElem?_answers (h : operations[i]? = some operation) :
    (answers operations)[i]? = some ((after (operations.take i)).perform operation).1 := by
  obtain ⟨hi, hop⟩ := List.getElem?_eq_some_iff.1 h
  have hsplit : operations = operations.take i ++ operation :: operations.drop (i + 1) := by
    rw [← hop, ← List.drop_eq_getElem_cons hi, List.take_append_drop]
  have hlength : (initial.run (operations.take i)).1.length = i := by
    rw [length_run, List.length_take]
    omega
  have hanswers : answers operations =
      (initial.run (operations.take i)).1 ++ ((after (operations.take i)).run (operation :: operations.drop (i + 1))).1 := by
    conv => lhs; rw [answers, hsplit, run_append]
    rfl
  rw [hanswers, List.getElem?_append_right (by omega), hlength, Nat.sub_self]
  rfl

/-- No operation is carried out without an answer, and none is answered that is not there. -/
theorem exists_of_getElem?_answers {answer : Answer} (h : (answers operations)[i]? = some answer) :
    ∃ operation, operations[i]? = some operation ∧ ((after (operations.take i)).perform operation).1 = answer := by
  cases hop : operations[i]? with
  | none =>
    have hlength : (answers operations).length = operations.length := length_run _ _
    rw [List.getElem?_eq_none_iff] at hop
    have := (List.getElem?_eq_some_iff.1 h).1
    omega
  | some operation =>
    refine ⟨operation, rfl, ?_⟩
    rw [getElem?_answers hop] at h
    exact Option.some.inj h

/-! ## The table of memories -/

def table (operations : List Operation) : List Nat := (after operations).memoryOf

theorem memoryOf_take_prefix (operations : List Operation) (i j : Nat) (h : i ≤ j) :
    (after (operations.take i)).memoryOf <+: (after (operations.take j)).memoryOf := by
  induction j with
  | zero =>
    obtain rfl : i = 0 := by omega
    exact List.prefix_rfl
  | succ j ih =>
    rcases Nat.lt_or_ge j i with hij | hij
    · obtain rfl : i = j + 1 := by omega
      exact List.prefix_rfl
    · refine (ih hij).trans ?_
      cases hop : operations[j]? with
      | none => exact after_take_succ_of_none hop ▸ List.prefix_rfl
      | some operation =>
        rw [after_take_succ hop]
        exact memoryOf_perform _ _

/-- A handle has the memory it got at first. -/
theorem getElem?_table {m : Nat} (h : (after (operations.take i)).memoryOf[handle]? = some m) :
    (table operations)[handle]? = some m := by
  have hprefix := memoryOf_take_prefix operations i (max i operations.length) (Nat.le_max_left _ _)
  rw [List.take_of_length_le (Nat.le_max_right _ _)] at hprefix
  obtain ⟨rest, hrest⟩ := hprefix
  have hlt := (List.getElem?_eq_some_iff.1 h).1
  show (after operations).memoryOf[handle]? = some m
  rw [← hrest, List.getElem?_append_left hlt, h]

/-- A handle is there from the start, or made by one of the operations in front. -/
theorem known_succ_iff : Known operations (i + 1) handle ↔
    Known operations i handle ∨ (answers operations)[i]? = some (.handle handle) := by
  constructor
  · rintro (rfl | ⟨j, hj, ha⟩)
    · exact .inl (.inl rfl)
    · rcases Nat.lt_succ_iff_lt_or_eq.1 hj with hj | rfl
      · exact .inl (.inr ⟨j, hj, ha⟩)
      · exact .inr ha
  · rintro ((rfl | ⟨j, hj, ha⟩) | ha)
    · exact .inl rfl
    · exact .inr ⟨j, Nat.lt_succ_of_lt hj, ha⟩
    · exact .inr ⟨i, Nat.lt_succ_self i, ha⟩

theorem known_succ_of_none (h : operations[i]? = none) :
    Known operations (i + 1) handle ↔ Known operations i handle := by
  refine known_succ_iff.trans ⟨?_, .inl⟩
  rintro (hk | ha)
  · exact hk
  · obtain ⟨operation, hop, -⟩ := exists_of_getElem?_answers ha
    rw [h] at hop
    cases hop

/-- What the operations in front of a place have made of the handles. -/
structure Tabled (operations : List Operation) (i : Nat) (k : Handles) : Prop where
  /-- The handles are numbered in the order they were made. -/
  known : ∀ h, Known operations i h ↔ h < k.memoryOf.length
  /-- Memories are numbered below the next one to be made. -/
  bounded : ∀ (h m : Nat), k.memoryOf[h]? = some m → m < k.memories
  /-- Handles of one memory are connected. -/
  connected : ∀ (h h' m : Nat), k.memoryOf[h]? = some m → k.memoryOf[h']? = some m → Shares operations h h'

/-- A new handle's memory is at the end of the table. -/
theorem getElem?_concat_cases {l : List Nat} {x m : Nat} (h : (l ++ [x])[i]? = some m) :
    l[i]? = some m ∨ i = l.length ∧ x = m := by
  rcases Nat.lt_trichotomy i l.length with hi | rfl | hi
  · exact .inl (by rwa [List.getElem?_append_left hi] at h)
  · exact .inr ⟨rfl, by simpa using h⟩
  · rw [List.getElem?_eq_none (by simp; omega)] at h
    cases h

/-- An operation keeps the table in order. -/
theorem Tabled.step {k' : Handles} {answer : Answer} (ht : Tabled operations i k) (hop : operations[i]? = some operation)
    (hanswer : (answers operations)[i]? = some answer) (heffect : Effect k operation answer k') :
    Tabled operations (i + 1) k' := by
  -- a handle that was made is the next one, and no other was
  have hmade (n : Nat) (hn : answer = .handle n) (h : Nat) : Known operations (i + 1) h ↔ h < k.memoryOf.length ∨ h = n := by
    rw [known_succ_iff, ht.known, hanswer, hn]
    simp [eq_comm]
  have hkept (hn : ∀ n, answer ≠ .handle n) (h : Nat) : Known operations (i + 1) h ↔ h < k.memoryOf.length := by
    rw [known_succ_iff, ht.known, hanswer]
    simp [hn]
  cases heffect with
  | fresh =>
    refine ⟨fun h => ?_, fun h m hm => ?_, fun h h' m hm hm' => ?_⟩
    · rw [hmade _ rfl, List.length_append, List.length_singleton]
      omega
    · rcases getElem?_concat_cases hm with hm | ⟨-, rfl⟩
      · exact Nat.lt_succ_of_lt (ht.bounded h m hm)
      · exact Nat.lt_succ_self _
    · rcases getElem?_concat_cases hm with hm | ⟨rfl, rfl⟩ <;> rcases getElem?_concat_cases hm' with hm' | ⟨rfl, heq⟩
      · exact ht.connected h h' m hm hm'
      · exact absurd (ht.bounded h m hm) (by omega)
      · exact absurd (ht.bounded h' _ hm') (Nat.lt_irrefl _)
      · exact .refl _
  | @shared source m₀ hsource =>
    have hlink : Shares operations source k.memoryOf.length := .rel _ _ ⟨i, hop, hanswer⟩
    refine ⟨fun h => ?_, fun h m hm => ?_, fun h h' m hm hm' => ?_⟩
    · rw [hmade _ rfl, List.length_append, List.length_singleton]
      omega
    · rcases getElem?_concat_cases hm with hm | ⟨-, rfl⟩
      · exact ht.bounded h m hm
      · exact ht.bounded source m₀ hsource
    · rcases getElem?_concat_cases hm with hm | ⟨rfl, rfl⟩ <;> rcases getElem?_concat_cases hm' with hm' | ⟨rfl, heq⟩
      · exact ht.connected h h' m hm hm'
      · subst heq
        exact (ht.connected h source m₀ hm hsource).trans _ _ _ hlink
      · exact ((ht.connected h' source m₀ hm' hsource).trans _ _ _ hlink).symm
      · exact .refl _
  | written => exact ⟨hkept nofun, ht.bounded, ht.connected⟩
  | calculated => exact ⟨hkept nofun, ht.bounded, ht.connected⟩
  | kept hn => exact ⟨hkept hn, ht.bounded, ht.connected⟩

theorem tabled (operations : List Operation) (i : Nat) : Tabled operations i (after (operations.take i)) := by
  induction i with
  | zero =>
    refine ⟨fun h => ?_, fun h m hm => ?_, fun h h' m hm hm' => ?_⟩
    · show _ ↔ h < 1
      simp [Known]
    · have hm : [0][h]? = some m := hm
      obtain ⟨hlt, rfl⟩ := List.getElem?_eq_some_iff.1 hm
      show [0][h] < 1
      simp
    · have hh := (List.getElem?_eq_some_iff.1 hm).1
      have hh' := (List.getElem?_eq_some_iff.1 hm').1
      change h < 1 at hh
      change h' < 1 at hh'
      obtain rfl : h = h' := by omega
      exact .refl h
  | succ i ih =>
    cases hop : operations[i]? with
    | none =>
      rw [after_take_succ_of_none hop]
      exact ⟨fun h => (known_succ_of_none hop).trans (ih.known h), ih.bounded, ih.connected⟩
    | some operation =>
      rw [after_take_succ hop]
      exact ih.step hop (getElem?_answers hop) (effect_perform _ _)

/-! ## Sharing -/

/-- A handle that was made from another has its memory. -/
theorem Derived.table_eq {h h' : Nat} (hd : Derived operations h h') :
    (table operations)[h]? = (table operations)[h']? := by
  obtain ⟨i, hop, hanswer⟩ := hd
  have hstep := after_take_succ hop
  have heffect := effect_perform (after (operations.take i)) (.shared h)
  rw [getElem?_answers hop, Option.some.injEq] at hanswer
  rw [hanswer, ← hstep] at heffect
  generalize hk' : after (operations.take (i + 1)) = k' at heffect
  cases heffect with
  | @shared _ m hm =>
    have hnew : (after (operations.take (i + 1))).memoryOf[(after (operations.take i)).memoryOf.length]? = some m := by
      rw [hk']
      simp
    rw [getElem?_table hm, getElem?_table hnew]
  | kept hn => exact absurd rfl (hn h')

theorem Shares.table_eq {h h' : Nat} (hs : Shares operations h h') :
    (table operations)[h]? = (table operations)[h']? := by
  unfold Shares at hs
  induction hs with
  | rel h h' hd => exact hd.table_eq
  | refl => rfl
  | symm _ _ _ ih => exact ih.symm
  | trans _ _ _ _ _ ih ih' => exact ih.trans ih'

theorem exists_memory {h : Nat} (hk : Known operations i h) : ∃ m : Nat, (after (operations.take i)).memoryOf[h]? = some m :=
  ⟨_, List.getElem?_eq_getElem (((tabled operations i).known h).1 hk)⟩

/-- Handles that are there share a memory just if they have the same one. -/
theorem shares_iff {h h' m m' : Nat} (hm : (after (operations.take i)).memoryOf[h]? = some m)
    (hm' : (after (operations.take i)).memoryOf[h']? = some m') : Shares operations h h' ↔ m = m' := by
  constructor
  · intro hs
    have := hs.table_eq
    rw [getElem?_table hm, getElem?_table hm'] at this
    exact Option.some.inj this
  · rintro rfl
    exact (tabled operations i).connected h h' m hm hm'

/-! ## What was written last -/

variable {h h' : Nat} {last : Option String} {text : String}

theorem WritesTo.of_shares (hw : WritesTo operations i h text) (hs : Shares operations h h') : WritesTo operations i h' text := by
  obtain ⟨source, hsource, hw⟩ := hw
  exact ⟨source, hsource.trans _ _ _ hs, hw⟩

theorem LastWritten.of_shares (hl : LastWritten operations i h last) (hs : Shares operations h h') :
    LastWritten operations i h' last := by
  have back {j : Nat} {text : String} (hw : WritesTo operations j h' text) : WritesTo operations j h text :=
    hw.of_shares (hs.symm _ _)
  cases last with
  | none => exact fun j hj text hw => hl j hj text (back hw)
  | some text =>
    obtain ⟨j, hj, hw, hlast⟩ := hl
    exact ⟨j, hj, hw.of_shares hs, fun k hjk hki text' hw' => hlast k hjk hki text' (back hw')⟩

/-- Where nothing is written to the memory, what was written last stays. -/
theorem LastWritten.succ (hl : LastWritten operations i h last) (hw : ∀ text, ¬ WritesTo operations i h text) :
    LastWritten operations (i + 1) h last := by
  cases last with
  | none =>
    intro j hj text
    rcases Nat.lt_succ_iff_lt_or_eq.1 hj with hj | rfl
    · exact hl j hj text
    · exact hw text
  | some text =>
    obtain ⟨j, hj, hwj, hlast⟩ := hl
    refine ⟨j, Nat.lt_succ_of_lt hj, hwj, fun k hjk hki text' => ?_⟩
    rcases Nat.lt_succ_iff_lt_or_eq.1 hki with hki | rfl
    · exact hlast k hjk hki text'
    · exact hw text'

theorem WritesTo.lastWritten (hw : WritesTo operations i h text) : LastWritten operations (i + 1) h (some text) :=
  ⟨i, Nat.lt_succ_self i, hw, fun k hik hki => by omega⟩

/-- A text is written only through a handle that is there. -/
theorem Writes.exists_memory (hw : Writes operations i h text) :
    ∃ m : Nat, (after (operations.take i)).memoryOf[h]? = some m := by
  -- an operation on a handle that is not there is answered differently
  have known {operation : Operation} {go : Nat → Answer × Handles} {answer : Answer}
      (hop : operations[i]? = some operation) (ha : (answers operations)[i]? = some answer) (hne : answer ≠ .unknownHandle)
      (hp : (after (operations.take i)).perform operation = (after (operations.take i)).withMemory h go) :
      ∃ m : Nat, (after (operations.take i)).memoryOf[h]? = some m := by
    cases hm : (after (operations.take i)).memoryOf[h]? with
    | some m => exact ⟨m, rfl⟩
    | none =>
      rw [getElem?_answers hop, hp, withMemory_of_none hm] at ha
      exact absurd (Option.some.inj ha).symm hne
  rcases hw with ⟨hop, ha⟩ | ⟨expression, hop, ha⟩
  · exact known hop ha nofun rfl
  · exact known hop ha nofun rfl

/-- A text was written only to a memory made before. -/
theorem Writes.exists_table {j : Nat} (hj : j < i) (hw : Writes operations j h text) :
    ∃ m < (after (operations.take i)).memories, (table operations)[h]? = some m := by
  obtain ⟨m, hm⟩ := hw.exists_memory
  obtain ⟨rest, hrest⟩ := memoryOf_take_prefix operations j i (Nat.le_of_lt hj)
  have hi : (after (operations.take i)).memoryOf[h]? = some m := by
    rw [← hrest, List.getElem?_append_left (List.getElem?_eq_some_iff.1 hm).1, hm]
  exact ⟨m, (tabled operations i).bounded h m hi, getElem?_table hi⟩

theorem Writes.exists_operation (hw : Writes operations i h text) :
    ∃ operation, operations[i]? = some operation ∧ operation.handle? = some h := by
  rcases hw with ⟨hop, -⟩ | ⟨expression, hop, -⟩
  · exact ⟨_, hop, rfl⟩
  · exact ⟨_, hop, rfl⟩

/-- An operation writes through one handle at most. -/
theorem Writes.handle_unique {text' : String} (hw : Writes operations i h text) (hw' : Writes operations i h' text') : h = h' := by
  obtain ⟨operation, hop, hh⟩ := hw.exists_operation
  obtain ⟨operation', hop', hh'⟩ := hw'.exists_operation
  rw [hop, Option.some.injEq] at hop'
  subst hop'
  exact Option.some.inj (hh.symm.trans hh')

theorem not_writesTo_of_none (hop : operations[i]? = none) (text : String) : ¬ WritesTo operations i h text := by
  intro hw
  obtain ⟨source, -, hw⟩ := hw
  obtain ⟨operation, hop', -⟩ := hw.exists_operation
  rw [hop] at hop'
  cases hop'

/-- An operation that is answered neither way writes nothing. -/
theorem not_writesTo {answer : Answer} (hanswer : (answers operations)[i]? = some answer) (hne : answer ≠ .written)
    (hne' : ∀ text, answer ≠ .result (.ok text)) (h : Nat) (text : String) : ¬ WritesTo operations i h text := by
  intro hw
  obtain ⟨source, -, ⟨-, ha⟩ | ⟨expression, -, ha⟩⟩ := hw
  · exact hne (Option.some.inj (hanswer.symm.trans ha))
  · exact hne' text (Option.some.inj (hanswer.symm.trans ha))

/-- A text reaches the memory of the handle it is written through, and no other. -/
theorem Writes.lastWritten_update {source m m₀ : Nat} (hw : Writes operations i source text)
    (hsource : (after (operations.take i)).memoryOf[source]? = some m₀) (hm : (after (operations.take i)).memoryOf[h]? = some m)
    (hl : LastWritten operations i h ((after (operations.take i)).services m).last) :
    LastWritten operations (i + 1) h (update (after (operations.take i)).services m₀ ⟨some text⟩ m).last := by
  by_cases he : m = m₀
  · subst he
    rw [update_self]
    exact WritesTo.lastWritten ⟨source, (shares_iff hsource hm).2 rfl, hw⟩
  · rw [update_of_ne he]
    refine hl.succ fun text' hw' => ?_
    obtain ⟨source', hs, hw'⟩ := hw'
    obtain rfl := hw.handle_unique hw'
    exact he ((shares_iff hsource hm).1 hs).symm

/-- Nothing was written to a memory that was not there. -/
theorem lastWritten_none {m : Nat} (hm : (table operations)[h]? = some m) (hle : (after (operations.take i)).memories ≤ m) :
    LastWritten operations i h none := by
  intro j hj text hw
  obtain ⟨source, hs, hw⟩ := hw
  obtain ⟨m', hlt, hm'⟩ := hw.exists_table hj
  rw [hs.table_eq, hm] at hm'
  cases hm'
  omega

/-- An operation leaves in each memory what was written last to it. -/
theorem lastWritten_step {k' : Handles} {answer : Answer} {h m : Nat}
    (ih : ∀ h m : Nat, (after (operations.take i)).memoryOf[h]? = some m →
      LastWritten operations i h ((after (operations.take i)).services m).last)
    (hop : operations[i]? = some operation) (hanswer : (answers operations)[i]? = some answer)
    (heffect : Effect (after (operations.take i)) operation answer k') (htable : (table operations)[h]? = some m)
    (hm : k'.memoryOf[h]? = some m) : LastWritten operations (i + 1) h (k'.services m).last := by
  have hquiet := not_writesTo hanswer
  cases heffect with
  | fresh =>
    show LastWritten operations (i + 1) h (update _ (after (operations.take i)).memories Service.fresh m).last
    rcases getElem?_concat_cases hm with hm | ⟨-, rfl⟩
    · have hlt := (tabled operations i).bounded h m hm
      rw [update_of_ne (Nat.ne_of_lt hlt)]
      exact (ih h m hm).succ (hquiet nofun nofun h)
    · rw [update_self]
      exact (lastWritten_none htable (Nat.le_refl _)).succ (hquiet nofun nofun h)
  | @shared source m₀ hsource =>
    rcases getElem?_concat_cases hm with hm | ⟨rfl, rfl⟩
    · exact (ih h m hm).succ (hquiet nofun nofun h)
    · have hlink : Shares operations source (after (operations.take i)).memoryOf.length := .rel _ _ ⟨i, hop, hanswer⟩
      exact ((ih source m₀ hsource).of_shares hlink).succ (hquiet nofun nofun _)
  | written hsource => exact Writes.lastWritten_update (.inl ⟨hop, hanswer⟩) hsource hm (ih h m hm)
  | @calculated source m₀ expression text hsource hr =>
    exact Writes.lastWritten_update (.inr ⟨expression, hop, hanswer⟩) hsource hm (ih h m hm)
  | kept hn ha ha' => exact (ih h m hm).succ (hquiet ha ha' h)

/-- A memory holds what was written last through any of its handles. -/
theorem lastWritten_after (operations : List Operation) (i : Nat) {h m : Nat}
    (hm : (after (operations.take i)).memoryOf[h]? = some m) :
    LastWritten operations i h ((after (operations.take i)).services m).last := by
  induction i generalizing h m with
  | zero => exact fun j hj => absurd hj (Nat.not_lt_zero j)
  | succ i ih =>
    have htable := getElem?_table hm
    cases hop : operations[i]? with
    | none =>
      rw [after_take_succ_of_none hop] at hm ⊢
      exact (ih hm).succ (not_writesTo_of_none hop)
    | some operation =>
      rw [after_take_succ hop] at hm ⊢
      exact lastWritten_step (fun _ _ => ih) hop (getElem?_answers hop) (effect_perform _ _) htable hm

/-! ## The law holds -/

theorem separate_of_not_shares (hop : operations[i]? = some operation) (hk : Known operations i h)
    (hs : ∀ h', operation.handle? = some h' → ¬ Shares operations h' h) :
    ((after (operations.take (i + 1))).perform (.read h)).1 = ((after (operations.take i)).perform (.read h)).1 := by
  obtain ⟨m, hm⟩ := exists_memory hk
  have hm' : (after (operations.take (i + 1))).memoryOf[h]? = some m := by
    obtain ⟨rest, hrest⟩ := memoryOf_take_prefix operations i (i + 1) (Nat.le_succ i)
    rw [← hrest, List.getElem?_append_left (List.getElem?_eq_some_iff.1 hm).1, hm]
  -- the text that is read is that of the same memory, which the operation does not write to
  have hservice : (after (operations.take (i + 1))).services m = (after (operations.take i)).services m := by
    have hbound := (tabled operations i).bounded h m hm
    have heffect := effect_perform (after (operations.take i)) operation
    rw [after_take_succ hop]
    generalize ((after (operations.take i)).perform operation).1 = answer,
      ((after (operations.take i)).perform operation).2 = k' at heffect ⊢
    cases heffect with
    | fresh => exact update_of_ne (Nat.ne_of_lt hbound) _
    | shared => rfl
    | @written source m₀ text hsource =>
      refine update_of_ne (fun he => hs source rfl ?_) _
      exact (shares_iff hsource hm).2 he.symm
    | @calculated source m₀ expression text hsource hr =>
      refine update_of_ne (fun he => hs source rfl ?_) _
      exact (shares_iff hsource hm).2 he.symm
    | kept => rfl
  rw [perform, withMemory_of_some hm', perform, withMemory_of_some hm, hservice]

/-- Every run of operations obeys the law. -/
theorem memoryLaw (operations : List Operation) : MemoryLaw operations where
  created := by
    intro i hmade
    refine ⟨(after (operations.take i)).memoryOf.length, ?_, fun hk => ?_⟩
    · rcases hmade with hop | ⟨h, hop, hk⟩
      · exact getElem?_answers hop
      · obtain ⟨m, hm⟩ := exists_memory hk
        rw [getElem?_answers hop, perform, withMemory_of_some hm]
        rfl
    · exact Nat.lt_irrefl _ (((tabled operations i).known _).1 hk)
  read := by
    intro i h hop hk
    obtain ⟨m, hm⟩ := exists_memory hk
    refine ⟨_, lastWritten_after operations i hm, ?_⟩
    rw [getElem?_answers hop, perform, withMemory_of_some hm]
  greeting := by
    intro i h hop hk
    obtain ⟨m, hm⟩ := exists_memory hk
    have hlast := lastWritten_after operations i hm
    rw [getElem?_answers hop, perform, withMemory_of_some hm]
    cases hl : ((after (operations.take i)).services m).last with
    | none =>
      rw [hl] at hlast
      refine .inl ⟨hlast, ?_⟩
      simp only [Service.greeting, hl]
    | some text =>
      rw [hl] at hlast
      refine .inr ⟨text, hlast, ?_⟩
      simp only [Service.greeting, hl]
  written := by
    intro i h text hop hk
    obtain ⟨m, hm⟩ := exists_memory hk
    rw [getElem?_answers hop, perform, withMemory_of_some hm]
  calculated := by
    intro i h expression hop hk
    obtain ⟨m, hm⟩ := exists_memory hk
    rw [getElem?_answers hop, perform, withMemory_of_some hm]
    exact congrArg (fun r => some (Answer.result r)) (Service.fst_calculate _ _)
  failed := by
    intro i h expression e hop ha
    rw [getElem?_answers hop, Option.some.injEq] at ha
    have heffect := effect_perform (after (operations.take i)) (.calculate h expression)
    rw [after_take_succ hop]
    rw [ha] at heffect
    generalize ((after (operations.take i)).perform (.calculate h expression)).2 = k' at heffect
    cases heffect
    rfl
  separate := fun i operation h hop hk hs => separate_of_not_shares hop hk hs

/-- What is written through a handle made from the first is read through the first, and through no other. -/
example : answers [.shared 0, .fresh, .write 1 "6.00", .read 0, .read 2] =
    [.handle 1, .handle 2, .written, .last (some "6.00"), .last none] := rfl

end Calculator.Handles
