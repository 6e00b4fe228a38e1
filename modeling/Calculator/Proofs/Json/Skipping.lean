/-
  Calculator.Proofs.Json.Skipping — whatever is written can be passed over.

  Passing over a value asks for nothing but depth, and no more arrays and objects can be open at
  once than there are bytes. Each item of a list starts behind the end of the one before it, so
  that what holds of everything that is no longer than the list holds of its items
  (`Inside.forall_mem`). Main statements: `skips_of_written`, and `skips_members` for an object whose
  brace is read.
-/

import Calculator.Proofs.Json.Flaw

namespace Calculator.Json

open Reader

variable {input rest : List UInt8} {w : Writing}

/-- What holds of every item that is no longer than the list holds of the items of the list. -/
theorem Inside.forall_mem {ω : Type} {item : ω → List UInt8 → List UInt8 → Prop} {close : Char} {xs : List ω} {p : ω → Prop}
    (hc : IsMark close)
    (hitem : ∀ {x : ω} {start behind : List UInt8}, item x start behind → Ends behind → start.length ≤ input.length →
      p x ∧ behind.length < start.length)
    (h : Inside item close xs input rest) : ∀ x ∈ xs, p x := by
  -- the items follow each other, so each starts no earlier than the one before it ended
  have series {xs : List ω} {start behind : List UInt8} (h : Series item close xs start behind)
      (hn : start.length ≤ input.length) :
      ∀ x ∈ xs, p x := by
    induction h with
    | last hx hclose =>
      intro y hy
      cases List.mem_singleton.1 hy
      exact (hitem hx (hclose.ends hc.ends_cons) hn).1
    | more hx hcomma _ ih =>
      obtain ⟨hp, hshorter⟩ := hitem hx (hcomma.ends IsMark.comma.ends_cons) hn
      have hnext := hcomma.length_le
      simp only [List.length_cons] at hnext
      intro y hy
      rcases List.mem_cons.1 hy with rfl | hy
      · exact hp
      · exact ih (by omega) y hy
  cases h with
  | empty _ => exact nofun
  | series h => exact series h (Nat.le_refl _)

def Skips (depth : Nat) (w : Writing) : Prop := w.make .skipping .skipping depth = .ok ()

theorem Skips.length_lt {depth : Nat} (hs : Skips depth w) (h : w.Written input rest) (he : Ends rest) :
    rest.length < input.length := by
  have hread := (reads_skipping depth).read_eq h he
  rw [hs] at hread
  exact (Scheme.skipping.value depth).shorter hread

/-- A member ends behind its value, and its value starts behind its name. -/
theorem skips_member {depth : Nat}
    (hvalue : ∀ {w : Writing} {start behind : List UInt8}, w.Written start behind → Ends behind → start.length ≤ depth → Skips depth w)
    {member : List Piece × Writing} (h : Member Writing.Written member input rest) (he : Ends rest) (hn : input.length ≤ depth) :
    Skips depth member.2 ∧ rest.length < input.length := by
  cases h with
  | @intro ps w _ name behindName start _ hquote hps hcolon hw =>
    have hname : behindName.length < name.length := by
      have hread := reads_skipQuoted.read_eq hps (hcolon.ends IsMark.colon.ends_cons)
      exact skipQuoted.shorter hread
    have hquote := hquote.length_le
    have hcolon := hcolon.length_le
    simp only [List.length_cons] at hquote hcolon
    have hskips : Skips depth w := hvalue hw he (by omega)
    refine ⟨hskips, ?_⟩
    have := hskips.length_lt hw he
    omega

/-- Whatever is written can be passed over where the depth is its length. -/
theorem skips_of_written {depth : Nat} (h : w.Written input rest) (he : Ends rest) (hn : input.length ≤ depth) :
    Skips depth w := by
  -- on the depth, since the bracket or brace that opens a level is a byte of its own
  induction depth generalizing w input rest with
  | zero =>
    obtain ⟨b, tail, hskip, -⟩ := Writing.exists_start h
    have hlength := length_skipBlanks_le input
    rw [hskip] at hlength
    simp only [List.length_cons] at hlength
    omega
  | succ depth ih =>
    unfold Skips
    cases h with
    | null _ => rw [Writing.make, Scheme.skipping]
    | yes _ => rw [Writing.make, Scheme.skipping]
    | no _ => rw [Writing.make, Scheme.skipping]
    | number _ _ => rw [Writing.make]; rfl
    | text _ _ => rw [Writing.make]; rfl
    | @array items _ start _ hblanks hitems =>
      have hstart := hblanks.length_le
      simp only [List.length_cons] at hstart
      have hskips : ∀ w ∈ items, Skips depth w := by
        refine Inside.forall_mem .bracket (fun hw he' hn' => ?_) hitems
        have hs := ih hw he' (by omega)
        exact ⟨hs, hs.length_lt hw he'⟩
      obtain ⟨done, hdone⟩ := exists_mapM_eq_ok fun w hw => ⟨(), hskips w hw⟩
      rw [Writing.make, hdone]
      rfl
    | @object members _ start _ hblanks hmembers =>
      have hstart := hblanks.length_le
      simp only [List.length_cons] at hstart
      have hskips : ∀ member ∈ members, Skips depth member.2 := by
        refine Inside.forall_mem .brace (fun hmember he' hn' => ?_) hmembers
        exact skips_member ih hmember he' (by omega)
      obtain ⟨done, hdone⟩ : ∃ done, members.mapM (Writing.makeMember .skipping (Writing.make .skipping .skipping depth)) = .ok done := by
        refine exists_mapM_eq_ok fun member hmember => ⟨("", ()), ?_⟩
        have hs : member.2.make .skipping .skipping depth = .ok () := hskips member hmember
        unfold Writing.makeMember
        rw [hs]
        rfl
      rw [Writing.make, hdone]
      rfl

/-- The members of an object can be passed over where the depth is the length of the object. -/
theorem skips_members {depth : Nat} {members : List (List Piece × Writing)}
    (h : Inside (Member Writing.Written) '\x7d' members input rest) (hn : input.length ≤ depth) :
    ∀ member ∈ members, Skips depth member.2 := by
  refine Inside.forall_mem .brace (fun hmember he hn' => ?_) h
  exact skips_member skips_of_written hmember he (by omega)

end Calculator.Json
