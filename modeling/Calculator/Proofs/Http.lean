/-
  Calculator.Proofs.Http — what one request does to the service.

  Only a POST on the path can change what the service remembers, and only when it is answered
  200 (`submit_cases`, `service_respond`). What it is answered does not depend on
  what is remembered (`reply_submit`). A result stands in its body as it is (`body_result`).
-/

import Calculator.Http
import Calculator.Proofs.Except
import Calculator.Proofs.Json.Compact

namespace Calculator.Http

def Request.IsSubmission (r : Request) : Prop := r.method = "POST" ∧ pathOf r.target = calculatePath

def Request.IsGreeting (r : Request) : Prop := r.method = "GET" ∧ pathOf r.target = calculatePath

theorem body_result {expression text : String} (h : resultText expression = .ok text) :
    (Reply.result text).body = "\x7b\"result\":\"" ++ text ++ "\"\x7d" := by
  obtain ⟨x, -, rfl⟩ := map_eq_ok.1 h
  show Json.compact _ = _
  have hname : Json.IsPlainText "result" := by decide
  rw [Json.compact_member, Json.quote_of_isPlainText hname, Json.quote_of_isPlainText (Json.isPlainText_twoDecimals x)]
  simp only [String.append_assoc]
  rfl

/-- A submission is answered with a result, which is remembered, or with a failure, which is not. -/
theorem submit_cases (s : Service) (body : List UInt8) :
    (∃ expression text, resultText expression = .ok text ∧ (submit s body).reply = .result text ∧
        (submit s body).service = ⟨some text⟩) ∨
      (submit s body).reply.status ≠ 200 ∧ (submit s body).service = s := by
  unfold submit
  split
  · exact .inr ⟨show (413 : Nat) ≠ 200 by decide, rfl⟩
  split
  · exact .inr ⟨show (400 : Nat) ≠ 200 by decide, rfl⟩
  split
  · exact .inr ⟨show (422 : Nat) ≠ 200 by decide, rfl⟩
  · next expression _ =>
    unfold Service.calculate
    cases hresult : resultText expression with
    | ok text => exact .inl ⟨expression, text, hresult, rfl, rfl⟩
    | error e => exact .inr ⟨show (422 : Nat) ≠ 200 by decide, rfl⟩

/-- What a submission is answered does not depend on the service. -/
theorem reply_submit (s t : Service) (body : List UInt8) : (submit s body).reply = (submit t body).reply := by
  unfold submit
  split
  · rfl
  split
  · rfl
  split
  · rfl
  · next expression _ =>
    unfold Service.calculate
    cases resultText expression with
    | ok text => rfl
    | error e => rfl

variable {r : Request}

theorem respond_submission (s : Service) (h : r.IsSubmission) : respond s r = submit s r.body := by
  rw [respond, if_pos h.2, h.1]
  rfl

theorem respond_greeting (s : Service) (h : r.IsGreeting) : respond s r = ⟨.plain 200 s.greeting, [], s⟩ := by
  rw [respond, if_pos h.2, h.1]
  rfl

/-- Any other request leaves the service alone. -/
theorem service_respond (s : Service) (h : ¬ r.IsSubmission) : (respond s r).service = s := by
  unfold respond
  split
  · next hp =>
    split
    · next hm => exact absurd ⟨hm, hp⟩ h
    · rfl
    · rfl
    · rfl
  · rfl

end Calculator.Http
