/-
  Calculator.Proofs.Routers — what the replies to a run of requests say of each other.

  The routers after a run are `after`. Serving a run to the end of a part and going on from there
  is serving it whole (`take_serve`, `drop_serve`), so the reply at a place is what the routers
  after the requests in front of it give (`getElem?_serve`). One request either succeeds and is
  remembered by its router, or changes no router at all (`after_take_succ_cases`); so what a
  router remembers is the result of its latest success (`last_after_take`).

  Main statement: `stateLaw`, in terms of requests and replies alone.
-/

import Calculator.Proofs.Http
import Calculator.Routers

namespace Calculator

section

variable {α : Type} {f : Nat → α} {i j : Nat}

theorem update_self (v : α) : update f i v i = v := if_pos rfl

theorem update_of_ne (h : j ≠ i) (v : α) : update f i v j = f j := if_neg h

theorem update_eq_self : update f i (f i) = f := by
  funext j
  by_cases h : j = i
  · rw [h, update_self]
  · exact update_of_ne h _

end

namespace Routers

open Http (Request Reply)

/-! ## The law -/

/-- The request at this place is a submission to this router, and is answered 200. -/
def Succeeds (requests : List (Nat × Request)) (router place : Nat) : Prop :=
  ∃ q reply, requests[place]? = some (router, q) ∧ q.IsSubmission ∧
    (serve initial requests)[place]? = some reply ∧ reply.status = 200

/-- What is answered to requests in any order to any routers, all fresh at the start. -/
structure StateLaw (requests : List (Nat × Request)) : Prop where
  /-- A submission is answered from its body alone. -/
  submission : ∀ (i router : Nat) (q : Request), requests[i]? = some (router, q) → q.IsSubmission →
    (serve initial requests)[i]? = some (Http.submit .fresh q.body).reply
  /-- A greeting in front of every success of its router is a welcome. -/
  welcome : ∀ (i router : Nat) (q : Request), requests[i]? = some (router, q) → q.IsGreeting →
    (∀ j < i, ¬ Succeeds requests router j) →
    (serve initial requests)[i]? =
      some ⟨200, "Welcome to the calculator server. Send a POST request to start working.",
        some "text/plain; charset=utf-8", none⟩
  /-- Any other greeting tells the result of the latest success of its router, which stands in the body
  of that answer. -/
  lastResult : ∀ (i router : Nat) (q : Request) (j : Nat), requests[i]? = some (router, q) → q.IsGreeting →
    j < i → Succeeds requests router j → (∀ k, j < k → k < i → ¬ Succeeds requests router k) →
    ∃ r, (serve initial requests)[j]? = some (.result r) ∧ (Reply.result r).body = "\x7b\"result\":\"" ++ r ++ "\"\x7d" ∧
      (serve initial requests)[i]? = some ⟨200, "Last correct result: " ++ r, some "text/plain; charset=utf-8", none⟩
  /-- Without a request that does not succeed, the other requests are answered the same. -/
  noop : ∀ i, (∀ router, ¬ Succeeds requests router i) →
    serve initial (requests.eraseIdx i) = (serve initial requests).eraseIdx i
  /-- A router answers as if it were sent its own requests only. -/
  own : ∀ router,
    ((requests.zip (serve initial requests)).filter (·.1.1 = router)).map (·.2) =
      (Http.serve .fresh ((requests.filter (·.1 = router)).map (·.2))).map Http.Exchange.reply

/-! ## Parts of a run -/

def after (k : Routers) (requests : List (Nat × Request)) : Routers :=
  requests.foldl (fun k p => update k p.1 (Http.respond (k p.1) p.2).service) k

variable {k : Routers} {requests : List (Nat × Request)} {router i : Nat} {q : Request}

theorem take_serve : (serve k requests).take i = serve k (requests.take i) := by
  induction requests generalizing k i with
  | nil => simp [serve]
  | cons p requests ih =>
    cases i with
    | zero => rfl
    | succ i => simp only [serve, List.take_succ_cons, ih]

theorem drop_serve : (serve k requests).drop i = serve (after k (requests.take i)) (requests.drop i) := by
  induction requests generalizing k i with
  | nil => simp [serve]
  | cons p requests ih =>
    cases i with
    | zero => rfl
    | succ i => simp only [serve, List.drop_succ_cons, List.take_succ_cons, after, List.foldl_cons, ih]

theorem serve_append (requests' : List (Nat × Request)) :
    serve k (requests ++ requests') = serve k requests ++ serve (after k requests) requests' := by
  have ht := @take_serve k (requests ++ requests') requests.length
  have hd := @drop_serve k (requests ++ requests') requests.length
  rw [List.take_left] at ht hd
  rw [List.drop_left] at hd
  rw [← ht, ← hd, List.take_append_drop]

theorem getElem?_serve (h : requests[i]? = some (router, q)) :
    (serve k requests)[i]? = some (Http.respond (after k (requests.take i) router) q).reply := by
  have hdrop : requests.drop i = (router, q) :: requests.drop (i + 1) := by
    obtain ⟨hi, hq⟩ := List.getElem?_eq_some_iff.1 h
    rw [List.drop_eq_getElem_cons hi, hq]
  have := @drop_serve k requests i
  rw [hdrop, serve] at this
  rw [← List.head?_drop, this]
  rfl

theorem after_take_succ (h : requests[i]? = some (router, q)) :
    after k (requests.take (i + 1)) =
      update (after k (requests.take i)) router (Http.respond (after k (requests.take i) router) q).service := by
  rw [List.take_add_one, h]
  exact List.foldl_append

theorem after_take_succ_of_none (h : requests[i]? = none) : after k (requests.take (i + 1)) = after k (requests.take i) := by
  rw [List.take_add_one, h]
  exact congrArg _ (List.append_nil _)

/-! ## What a router remembers -/

/-- A request either succeeds and is remembered by its router, or changes no router. -/
theorem after_take_succ_cases (requests : List (Nat × Request)) (i : Nat) :
    (∃ router expression r, Succeeds requests router i ∧ resultText expression = .ok r ∧
      (serve initial requests)[i]? = some (.result r) ∧
      after initial (requests.take (i + 1)) = update (after initial (requests.take i)) router ⟨some r⟩) ∨
      (∀ router, ¬ Succeeds requests router i) ∧ after initial (requests.take (i + 1)) = after initial (requests.take i) := by
  cases h : requests[i]? with
  | none =>
    refine .inr ⟨?_, after_take_succ_of_none h⟩
    intro router hs
    obtain ⟨q, reply, hq, -⟩ := hs
    rw [h] at hq
    cases hq
  | some p =>
    obtain ⟨router, q⟩ := p
    have hreply := @getElem?_serve initial _ _ _ _ h
    have hafter := @after_take_succ initial _ _ _ _ h
    by_cases hq : q.IsSubmission
    · rw [Http.respond_submission _ hq] at hreply hafter
      rcases Http.submit_cases (after initial (requests.take i) router) q.body with
        ⟨expression, r, hresult, hr, hs⟩ | ⟨hr, hs⟩
      · rw [hr] at hreply
        rw [hs] at hafter
        exact .inl ⟨router, expression, r, ⟨q, _, h, hq, hreply, rfl⟩, hresult, hreply, hafter⟩
      · rw [hs, update_eq_self] at hafter
        refine .inr ⟨?_, hafter⟩
        intro router' hsucceeds
        obtain ⟨_, reply, -, -, hreply', h200⟩ := hsucceeds
        rw [hreply] at hreply'
        cases hreply'
        exact hr h200
    · rw [Http.service_respond _ hq, update_eq_self] at hafter
      refine .inr ⟨?_, hafter⟩
      intro router' hsucceeds
      obtain ⟨q', reply, hq', hs, -⟩ := hsucceeds
      rw [h] at hq'
      cases hq'
      exact hq hs

theorem Succeeds.router_eq {router' : Nat} (h : Succeeds requests router i) (h' : Succeeds requests router' i) : router = router' := by
  obtain ⟨q, _, hq, -⟩ := h
  obtain ⟨q', _, hq', -⟩ := h'
  rw [hq] at hq'
  cases hq'
  rfl

/-- The place is that of the latest success of the router in front of `i`, with result `r`. -/
structure Latest (requests : List (Nat × Request)) (router i j : Nat) (r : String) : Prop where
  lt : j < i
  succeeds : Succeeds requests router j
  calculated : ∃ expression, resultText expression = .ok r
  reply : (serve initial requests)[j]? = some (.result r)
  last : ∀ k, j < k → k < i → ¬ Succeeds requests router k

/-- A router remembers the result of its latest success. -/
theorem last_after_take (requests : List (Nat × Request)) (router i : Nat) :
    after initial (requests.take i) router = ⟨none⟩ ∧ (∀ j < i, ¬ Succeeds requests router j) ∨
      ∃ j r, after initial (requests.take i) router = ⟨some r⟩ ∧ Latest requests router i j r := by
  induction i with
  | zero => exact .inl ⟨rfl, nofun⟩
  | succ i ih =>
    -- if the request at `i` is no success of this router, all stays as it was in front of it
    have keep (hs : ¬ Succeeds requests router i)
        (ha : after initial (requests.take (i + 1)) router = after initial (requests.take i) router) :
        after initial (requests.take (i + 1)) router = ⟨none⟩ ∧ (∀ j < i + 1, ¬ Succeeds requests router j) ∨
          ∃ j r, after initial (requests.take (i + 1)) router = ⟨some r⟩ ∧ Latest requests router (i + 1) j r := by
      rw [ha]
      rcases ih with ⟨hnone, hno⟩ | ⟨j, r, hr, hj⟩
      · refine .inl ⟨hnone, fun j hj => ?_⟩
        rcases Nat.lt_succ_iff_lt_or_eq.1 hj with hj | rfl
        · exact hno j hj
        · exact hs
      · refine .inr ⟨j, r, hr, Nat.lt_succ_of_lt hj.lt, hj.succeeds, hj.calculated, hj.reply, fun k hk hki => ?_⟩
        rcases Nat.lt_succ_iff_lt_or_eq.1 hki with hki | rfl
        · exact hj.last k hk hki
        · exact hs
    rcases after_take_succ_cases requests i with ⟨router', expression, r, hs, hresult, hr, ha⟩ | ⟨hs, ha⟩
    · by_cases he : router' = router
      · subst he
        refine .inr ⟨i, r, ?_, Nat.lt_succ_self i, hs, ⟨expression, hresult⟩, hr, fun k hk hki => ?_⟩
        · rw [ha, update_self]
        · omega
      · refine keep (fun h => he (hs.router_eq h)) ?_
        rw [ha, update_of_ne (Ne.symm he)]
    · exact keep (hs router) (congrFun ha router)

/-! ## The law holds -/

/-- A router is not touched by requests to others. -/
theorem own_serve (k : Routers) (requests : List (Nat × Request)) (router : Nat) :
    ((requests.zip (serve k requests)).filter (·.1.1 = router)).map (·.2) =
      (Http.serve (k router) ((requests.filter (·.1 = router)).map (·.2))).map Http.Exchange.reply := by
  induction requests generalizing k with
  | nil => rfl
  | cons p requests ih =>
    obtain ⟨router', q⟩ := p
    by_cases h : router' = router
    · subst h
      simp [serve, Http.serve, ih, update_self]
    · simp [serve, h, ih, update_of_ne (Ne.symm h)]

/-- Without a request that changes no router the run goes on as it did. -/
theorem eraseIdx_serve (requests : List (Nat × Request)) (i : Nat) (h : ∀ router, ¬ Succeeds requests router i) :
    serve initial (requests.eraseIdx i) = (serve initial requests).eraseIdx i := by
  rcases after_take_succ_cases requests i with ⟨router, _, _, hs, -⟩ | ⟨-, ha⟩
  · exact absurd hs (h router)
  · calc serve initial (requests.eraseIdx i)
      _ = serve initial (requests.take i) ++ serve (after initial (requests.take i)) (requests.drop (i + 1)) := by
        rw [List.eraseIdx_eq_take_drop_succ, serve_append]
      _ = (serve initial requests).take i ++ (serve initial requests).drop (i + 1) := by
        rw [take_serve, drop_serve, ha]
      _ = (serve initial requests).eraseIdx i := (List.eraseIdx_eq_take_drop_succ _ _).symm

/-- Every run of requests obeys the law. -/
theorem stateLaw (requests : List (Nat × Request)) : StateLaw requests where
  submission := by
    intro i router q h hq
    rw [getElem?_serve h, Http.respond_submission _ hq]
    exact congrArg some (Http.reply_submit _ _ _)
  welcome := by
    intro i router q h hq hno
    rw [getElem?_serve h, Http.respond_greeting _ hq]
    rcases last_after_take requests router i with ⟨hnone, -⟩ | ⟨j, r, -, hj⟩
    · rw [hnone]
      rfl
    · exact absurd hj.succeeds (hno j hj.lt)
  lastResult := by
    intro i router q j h hq hlt hs hlast
    rw [getElem?_serve h, Http.respond_greeting _ hq]
    rcases last_after_take requests router i with ⟨-, hno⟩ | ⟨j', r, hr, hj⟩
    · exact absurd hs (hno j hlt)
    · obtain rfl : j' = j := by
        rcases Nat.lt_trichotomy j' j with hjj | rfl | hjj
        · exact absurd hs (hj.last j hjj hlt)
        · rfl
        · exact absurd hj.succeeds (hlast j' hjj hj.lt)
      obtain ⟨expression, hresult⟩ := hj.calculated
      rw [hr]
      exact ⟨r, hj.reply, Http.body_result hresult, rfl⟩
  noop := by
    intro i h
    exact eraseIdx_serve requests i h
  own := own_serve initial requests

/-- Two routers: a result at the first, a welcome at the second, a failure that changes nothing. -/
example :
    let post (text : String) : Request :=
      ⟨"POST", "/api/v1/calculate", ("\x7b\"expression\":\"" ++ text ++ "\"\x7d").toUTF8.toList⟩
    let get : Request := ⟨"GET", "/api/v1/calculate", []⟩
    (serve initial [(0, post "2+2*2"), (1, get), (0, post "1/0"), (0, get)]).map Reply.body =
      ["\x7b\"result\":\"6.00\"\x7d", "Welcome to the calculator server. Send a POST request to start working.",
        "\x7b\"error\":\"Expression is not valid\"\x7d", "Last correct result: 6.00"] := by
  decide +kernel

end Routers

end Calculator
