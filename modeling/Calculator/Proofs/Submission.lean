/-
  Calculator.Proofs.Submission — what a body submits, and how it is answered.

  A body is decoded exactly if it is a JSON text of an object, and then its field is what the last
  member of the name says (`Means`). A text is submitted however the object, the name and the text
  itself are written (`Submits`): the grammar of `Json.Writing` and the values of `Json.Denotation` decide, which
  know nothing of reading; and every text can be (`submits_compact`). A POST of a body that submits a
  text is answered like a calculation of that text, and any other POST leaves the service as it was.

  Main statement: `submissionLaw`.
-/

import Calculator.Proofs.Entry
import Calculator.Proofs.Http
import Calculator.Proofs.Json.Quote

namespace Calculator.Submission

open Json

variable {name t : String} {x : Json} {members : List (String × Json)} {field : Option Field} {body : List UInt8}

/-! ## The last member of a name -/

def LastOf (name : String) (members : List (String × Json)) (x : Json) : Prop :=
  ∃ before after, members = before ++ (name, x) :: after ∧ ∀ member ∈ after, member.1 ≠ name

theorem lookup_eq_some_iff : lookup name members = some x ↔ LastOf name members x := lastEntry_eq_some_iff

theorem lookup_eq_none_iff : lookup name members = none ↔ ∀ member ∈ members, member.1 ≠ name := lastEntry_eq_none_iff

inductive Means (members : List (String × Json)) : Option Field → Prop
  | absent : (∀ member ∈ members, member.1 ≠ "expression") → Means members none
  | null : LastOf "expression" members .null → Means members none
  | text {t : String} : LastOf "expression" members (.text t) → Means members (some (.text t))
  | other {x : Json} : LastOf "expression" members x → x ≠ .null → (∀ t, x ≠ .text t) → Means members (some (.other x))

theorem ofJson_other (hnull : x ≠ .null) (htext : ∀ t, x ≠ .text t) : Field.ofJson x = some (.other x) := by
  cases x with
  | null => exact absurd rfl hnull
  | text t => exact absurd rfl (htext t)
  | bool | number | array | object => rfl

theorem fieldOf_eq (members : List (String × Json)) :
    fieldOf members = (lookup "expression" members).bind Field.ofJson := rfl

theorem fieldOf_eq_iff : fieldOf members = field ↔ Means members field := by
  rw [fieldOf_eq]
  constructor
  · intro h
    subst h
    cases hlast : lookup "expression" members with
    | none => exact .absent (lookup_eq_none_iff.1 hlast)
    | some x =>
      have hlast := lookup_eq_some_iff.1 hlast
      by_cases hnull : x = .null
      · subst hnull
        exact .null hlast
      by_cases htext : ∃ t, x = .text t
      · obtain ⟨t, rfl⟩ := htext
        exact .text hlast
      · have htext : ∀ t, x ≠ .text t := fun t ht => htext ⟨t, ht⟩
        rw [Option.bind_some, ofJson_other hnull htext]
        exact .other hlast hnull htext
  · intro h
    cases h with
    | absent hno =>
      rw [lookup_eq_none_iff.2 hno]
      rfl
    | null hlast =>
      rw [lookup_eq_some_iff.2 hlast]
      rfl
    | text hlast =>
      rw [lookup_eq_some_iff.2 hlast]
      rfl
    | other hlast hnull htext => rw [lookup_eq_some_iff.2 hlast, Option.bind_some, ofJson_other hnull htext]

/-! ## Decoding -/

theorem decode_eq_ok_iff : decode body = .ok field ↔ ∃ members, IsText body (.object members) ∧ Means members field := by
  constructor
  · intro h
    obtain ⟨value, hread, h⟩ := bind_eq_ok.1 h
    cases value with
    | object members =>
      cases h
      exact ⟨members, ofBytes_eq_ok_iff.1 hread, fieldOf_eq_iff.1 rfl⟩
    | null | bool | number | text | array => cases h
  · intro h
    obtain ⟨members, htext, hmeans⟩ := h
    unfold decode
    rw [ofBytes_eq_ok_iff.2 htext, ← fieldOf_eq_iff.2 hmeans]
    rfl

theorem decode_eq_wrongShape_iff :
    decode body = .error .wrongShape ↔ ∃ value, IsText body value ∧ ∀ members, value ≠ .object members := by
  unfold decode
  cases hread : ofBytes body with
  | error e =>
    constructor
    · intro h
      cases h
      exact absurd hread (ofForm_ofBytes body)
    · intro h
      obtain ⟨value, hvalue, -⟩ := h
      rw [ofBytes_eq_ok_iff.2 hvalue] at hread
      cases hread
  | ok value =>
    have hvalue := ofBytes_eq_ok_iff.1 hread
    constructor
    · intro h
      refine ⟨value, hvalue, fun members hmembers => ?_⟩
      subst hmembers
      cases h
    · intro h
      obtain ⟨value', hvalue', hno⟩ := h
      rw [ofBytes_eq_ok_iff.2 hvalue'] at hread
      cases hread
      cases value with
      | object members => exact absurd rfl (hno members)
      | null | bool | number | text | array => rfl

/-! ## Texts that are submitted -/

/-- The body is a text of an object, and the last member of the name, as whose letters it is written, is a
string that spells the text. -/
inductive Submits (t : String) (body : List UInt8) : Prop
  | intro {before after : List (List Piece × Writing)} {name ps : List Piece} {rest : List UInt8} {value : Json} :
      Writing.Written (.object (before ++ (name, .text ps) :: after)) body rest → Blanks rest [] →
      (Writing.object (before ++ (name, .text ps) :: after)).Denotes 127 value →
      Spells name "expression".toList → Spells ps t.toList →
      (∀ member ∈ after, ¬ Spells member.1 "expression".toList) → Submits t body

theorem submits_iff : Submits t body ↔ ∃ members, IsText body (.object members) ∧ LastOf "expression" members (.text t) := by
  constructor
  · intro h
    obtain ⟨hw, hblanks, hvalue, hname, hps, hafter⟩ := h
    have hobject := Writing.value_of_denotes hvalue
    rw [Writing.value_object] at hobject
    obtain ⟨members, hmembers, -⟩ := map_eq_ok.1 hobject
    refine ⟨members, isText_object_iff.2 ⟨_, _, hw, hblanks, hmembers⟩, ?_⟩
    obtain ⟨front, ⟨name', x⟩, behind, rfl, -, hlast, hbehind⟩ := mapM_append_eq_ok hmembers
    obtain ⟨hname', hx⟩ := Writing.memberValue_eq_ok_iff.1 hlast
    obtain rfl := Piece.spells_unique hname' hname
    rw [value_eq_text_iff.2 ⟨_, rfl, hps⟩] at hx
    cases hx
    refine ⟨front, behind, rfl, fun member hmember heq => ?_⟩
    obtain ⟨written, hwritten, hvalue⟩ := exists_mem_of_mapM_eq_ok hbehind member hmember
    have hspells := (Writing.memberValue_eq_ok_iff.1 hvalue).1
    rw [heq] at hspells
    exact hafter written hwritten hspells
  · intro h
    obtain ⟨members, htext, before, after, rfl, hafter⟩ := h
    obtain ⟨written, rest, hw, hblanks, hvalues⟩ := isText_object_iff.1 htext
    have hobject : (Writing.object written).value 127 = .ok (.object (before ++ ("expression", .text t) :: after)) := by
      rw [Writing.value_object, hvalues]
      rfl
    obtain ⟨front, ⟨name, w⟩, behind, rfl, -, hlast, hbehind⟩ := mapM_eq_ok_append hvalues
    obtain ⟨hname, hx⟩ := Writing.memberValue_eq_ok_iff.1 hlast
    obtain ⟨ps, rfl, hps⟩ := value_eq_text_iff.1 hx
    refine .intro hw hblanks (Writing.value_eq_ok_iff.1 hobject) hname hps fun member hmember hspells => ?_
    obtain ⟨⟨name', x⟩, hmem, hmember'⟩ := exists_of_mapM_eq_ok hbehind member hmember
    obtain rfl := Piece.spells_unique (Writing.memberValue_eq_ok_iff.1 hmember').1 hspells
    exact hafter _ hmem rfl

theorem submits_compact (t : String) : Submits t (utf8 (compact (.object [("expression", .text t)])).toList) :=
  submits_iff.2 ⟨_, isText_member "expression" t, [], [], rfl, nofun⟩

theorem decode_eq_text_iff : decode body = .ok (some (.text t)) ↔ Submits t body := by
  rw [decode_eq_ok_iff, submits_iff]
  refine exists_congr fun members => and_congr_right fun _ => ?_
  constructor
  · intro h
    cases h with
    | text hlast => exact hlast
  · exact .text

/-! ## Answers -/

/-- A body of at most 2097152 bytes, sent as a POST on the path. -/
structure Sent (body : List UInt8) (r : Http.Request) : Prop where
  method : r.method = "POST"
  path : Http.pathOf r.target = "/api/v1/calculate".toList
  body_eq : r.body = body
  within : body.length ≤ 2097152

section

variable {r : Http.Request}

theorem text?_eq_some_iff : field.bind Field.text? = some t ↔ field = some (.text t) := by
  cases field with
  | none => exact ⟨nofun, nofun⟩
  | some f =>
    cases f with
    | text s =>
      show some s = some t ↔ some (Field.text s) = some (Field.text t)
      rw [Option.some.injEq, Option.some.injEq, Field.text.injEq]
    | other x => exact ⟨nofun, nofun⟩

theorem Sent.respond_eq (h : Sent body r) (s : Service) : Http.respond s r = Http.submit s body := by
  rw [Http.respond_submission s ⟨h.method, h.path⟩, h.body_eq]

theorem Sent.not_tooLarge (h : Sent body r) : ¬ body.length > Http.bodyLimit := Nat.not_lt.2 h.within

theorem Sent.respond_of_error (h : Sent body r) (s : Service) {fault : Fault} (hdecode : decode body = .error fault) :
    Http.respond s r = ⟨.bodyRejected, [.bodyRejected], s⟩ := by
  rw [h.respond_eq, Http.submit, if_neg h.not_tooLarge, hdecode]

theorem Sent.respond_of_notText (h : Sent body r) (s : Service) (hdecode : decode body = .ok field)
    (hfield : field.bind Field.text? = none) : Http.respond s r = ⟨.expressionRejected, [.expressionNotText], s⟩ := by
  rw [h.respond_eq, Http.submit, if_neg h.not_tooLarge, hdecode]
  simp only [hfield]

theorem Sent.respond_of_text (h : Sent body r) (s : Service) (hdecode : decode body = .ok (some (.text t))) :
    Http.respond s r =
      match resultText t with
      | .ok result => ⟨.result result, [.calculated, .evaluated], ⟨some result⟩⟩
      | .error _ => ⟨.expressionRejected, [.expressionRejected], s⟩ := by
  rw [h.respond_eq, Http.submit, if_neg h.not_tooLarge, hdecode]
  simp only [Option.bind_some, Field.text?, Service.calculate]
  cases resultText t <;> rfl

def refusal (status : Nat) (message : String) : Http.Reply :=
  ⟨status, "\x7b\"error\":\"" ++ message ++ "\"\x7d", some "application/json", none⟩

theorem bodyRejected_eq : Http.Reply.bodyRejected = refusal 400 "Invalid request body" := by decide +kernel

theorem expressionRejected_eq : Http.Reply.expressionRejected = refusal 422 "Expression is not valid" := by decide +kernel

/-- What a POST of a body is answered, and what the service is after it. -/
structure AnswerLaw (body : List UInt8) (s : Service) (r : Http.Request) : Prop where
  /-- A text that is submitted is calculated. With a result the answer is 200, and it is remembered. -/
  result : ∀ t result, Submits t body → resultText t = .ok result →
    (Http.respond s r).reply = .result result ∧ (Http.respond s r).reply.status = 200 ∧
      (Http.respond s r).reply.body = "\x7b\"result\":\"" ++ result ++ "\"\x7d" ∧ (Http.respond s r).service = ⟨some result⟩
  /-- Without one it is 422. -/
  rejected : ∀ t e, Submits t body → resultText t = .error e →
    (Http.respond s r).reply = refusal 422 "Expression is not valid" ∧ (Http.respond s r).service = s
  /-- An object whose last member of the name is no string, or that has none, is answered 422,
  whatever members of the name stand in front. -/
  notText : ∀ members, IsText body (.object members) → (∀ t, ¬ LastOf "expression" members (.text t)) →
    (Http.respond s r).reply = refusal 422 "Expression is not valid" ∧ (Http.respond s r).service = s
  /-- What is no object is answered 400. -/
  notObject : (∀ members, ¬ IsText body (.object members)) →
    (Http.respond s r).reply = refusal 400 "Invalid request body" ∧ (Http.respond s r).service = s

theorem answerLaw (s : Service) (h : Sent body r) : AnswerLaw body s r where
  result t result hsubmits hresult := by
    rw [h.respond_of_text s (decode_eq_text_iff.2 hsubmits), hresult]
    exact ⟨rfl, rfl, Http.body_result hresult, rfl⟩
  rejected t e hsubmits hresult := by
    rw [h.respond_of_text s (decode_eq_text_iff.2 hsubmits), hresult]
    exact ⟨expressionRejected_eq, rfl⟩
  notText members htext hno := by
    have hdecode : decode body = .ok (fieldOf members) := decode_eq_ok_iff.2 ⟨members, htext, fieldOf_eq_iff.1 rfl⟩
    have hfield : (fieldOf members).bind Field.text? = none := by
      cases hbind : (fieldOf members).bind Field.text? with
      | none => rfl
      | some t =>
        cases fieldOf_eq_iff.1 (text?_eq_some_iff.1 hbind) with
        | text hlast => exact absurd hlast (hno t)
    rw [h.respond_of_notText s hdecode hfield]
    exact ⟨expressionRejected_eq, rfl⟩
  notObject hno := by
    cases hdecode : decode body with
    | error fault =>
      rw [h.respond_of_error s hdecode]
      exact ⟨bodyRejected_eq, rfl⟩
    | ok field =>
      obtain ⟨members, htext, -⟩ := decode_eq_ok_iff.1 hdecode
      exact absurd htext (hno members)

end

/-- What a body means, and how it is answered. -/
structure SubmissionLaw (body : List UInt8) : Prop where
  /-- A body is decoded exactly if it is a text of an object, and its field is what the members mean. -/
  decoded : ∀ field, decode body = .ok field ↔ ∃ members, IsText body (.object members) ∧ Means members field
  /-- Everything else is refused, -/
  refused : (∃ fault, decode body = .error fault) ↔ ∀ members, ¬ IsText body (.object members)
  /-- and for its shape exactly if it is a text of another value. -/
  shape : decode body = .error .wrongShape ↔ ∃ value, IsText body value ∧ ∀ members, value ≠ .object members
  /-- A field that is no text is neither a string nor null. -/
  other : ∀ x, decode body = .ok (some (.other x)) → x ≠ .null ∧ ∀ t, x ≠ .text t
  /-- The text of a field is that of the last member of the name. -/
  text : ∀ field t, decode body = .ok field →
    (field.bind Field.text? = some t ↔ ∃ members, IsText body (.object members) ∧ LastOf "expression" members (.text t))
  /-- A body is decoded to a text exactly if it submits it, however it is written. -/
  submitted : ∀ t, decode body = .ok (some (.text t)) ↔ Submits t body
  /-- Every text is submitted by the object of one member that is written without blanks. -/
  written : ∀ t, body = utf8 (compact (.object [("expression", .text t)])).toList → Submits t body
  /-- A POST is answered like a calculation of the text, or refused without a trace. -/
  answered : ∀ s r, Sent body r → AnswerLaw body s r

theorem submissionLaw (body : List UInt8) : SubmissionLaw body where
  decoded _ := decode_eq_ok_iff
  refused := by
    constructor
    · intro h members htext
      obtain ⟨fault, hfault⟩ := h
      rw [decode_eq_ok_iff.2 ⟨members, htext, fieldOf_eq_iff.1 rfl⟩] at hfault
      cases hfault
    · intro hno
      cases hdecode : decode body with
      | error fault => exact ⟨fault, rfl⟩
      | ok field =>
        obtain ⟨members, htext, -⟩ := decode_eq_ok_iff.1 hdecode
        exact absurd htext (hno members)
  shape := decode_eq_wrongShape_iff
  other x h := by
    obtain ⟨members, -, hmeans⟩ := decode_eq_ok_iff.1 h
    cases hmeans with
    | other _ hnull htext => exact ⟨hnull, htext⟩
  text field t h := by
    rw [text?_eq_some_iff, ← submits_iff, ← decode_eq_text_iff, h, Except.ok.injEq]
  submitted _ := decode_eq_text_iff
  written t h := by
    rw [h]
    exact submits_compact t
  answered s _ h := answerLaw s h

/-- Escapes in the name and in the text, and an earlier member of the name that is no string. -/
example :
    (decode (utf8 "\x7b\"expression\":[1], \"\\u0065xpression\" : \"1\\/2\"\x7d".toList)).toOption.bind
      (·.bind Field.text?) = some "1/2" := by
  decide +kernel

end Calculator.Submission
