/-
  Calculator.Proofs.Journal — what the journal of a run tells of its requests and answers.

  Each request is recorded by lines that its answer determines, and the body where the answer
  is 422 (`entries_respond`). Written out in full, the journal is these lines between the one
  of the start and the one of the end; what is shown of it are the lines that are no less severe
  than the level in effect, in their order. The level is asked for by the environment first, then by
  the arguments, then by the settings (`IsAsked`, `journalFilter_eq_iff`).

  Main statement: `journalLaw`, over every run of requests.
-/

import Calculator.Program
import Calculator.Proofs.CommandLine
import Calculator.Proofs.Directive
import Calculator.Proofs.Http

namespace Calculator

open Http (Request Reply)

/-! ## Levels -/

namespace Journal

theorem Filter.shows_iff (f : Filter) (l : Level) : f.shows l = true ↔ l.verbosity ≤ f.rank := by
  rcases f with _ | most
  · cases l <;> decide
  · simp [shows, rank]

/-- The text that asks for a level: the one of the environment if there is one, else what the
arguments come to, and without them the one of the settings. -/
def levelText (environment : List (String × String)) (verbosity : Nat) (logLevel : String) : String :=
  match environment.lookup "RUST_LOG" with
  | some text => text
  | none =>
    match verbosity with
    | 0 => logLevel
    | 1 => "info"
    | 2 => "debug"
    | _ + 3 => "trace"

def IsSilent (environment : List (String × String)) : Prop :=
  ∀ text, environment.lookup "RUST_LOG" = some text → ¬ IsReadable text

/-- Which level is asked for by the environment, else by the arguments, and without them by the settings. -/
inductive IsAsked (environment : List (String × String)) (verbosity : Nat) (logLevel : String) : Filter → Prop
  | environment {text : String} {f : Filter} : environment.lookup "RUST_LOG" = some text → IsReadable text → Asks text f →
      IsAsked environment verbosity logLevel f
  | info : IsSilent environment → verbosity = 1 → IsAsked environment verbosity logLevel (some .info)
  | debug : IsSilent environment → verbosity = 2 → IsAsked environment verbosity logLevel (some .debug)
  | trace : IsSilent environment → 3 ≤ verbosity → IsAsked environment verbosity logLevel (some .trace)
  | settings {f : Filter} : IsSilent environment → verbosity = 0 → Asks logLevel f → IsAsked environment verbosity logLevel f

/-! ## The full journal -/

abbrev Line := Level × String

def linesOf (r : Request) (reply : Reply) : List Line :=
  if r.method = "POST" ∧ Http.pathOf r.target = Http.calculatePath then
    match reply.status with
    | 200 => [(.debug, "calculation succeeded"), (.info, "expression evaluated")]
    | 400 => [(.warn, "request body rejected")]
    | 422 =>
      match Submission.decode r.body with
      | .ok (some (.text _)) => [(.debug, "expression rejected")]
      | _ => [(.debug, "expression is not a string")]
    | _ => []
  else []

def full (requests : List Request) (replies : List Reply) : List Line :=
  (.info, "HTTP server bound on") :: (requests.zip replies).flatMap (fun (r, reply) => linesOf r reply) ++
    [(.info, "HTTP server shutting down gracefully")]

def Line.text (l : Line) : String := l.1.label ++ " " ++ l.2

end Journal

open Journal Program

/-- What the journal shows of a run, and what does not depend on it. -/
structure JournalLaw (requests : List Request) : Prop where
  /-- A server listens with the level that is asked for. -/
  level : ∀ around arguments address f, start around arguments = .listening address f →
    ∃ uses options settings, CommandLine.Spelled arguments uses ∧ CommandLine.Settles uses options ∧
      Settings.load ((options.config.map around.document).getD .none) around.environment = .ok settings ∧
      (∀ l : Filter, IsAsked around.environment options.verbosity settings.logLevel l ↔ f = l) ∧
      ∀ l : Filter, l.name = levelText around.environment options.verbosity settings.logLevel → f = l
  /-- Each request is answered, and the answers are the same at every level. -/
  answered : ∀ f : Filter, (session f requests).replies.length = requests.length
  replies : ∀ f g : Filter, (session f requests).replies = (session g requests).replies
  /-- The lines shown are those that are severe enough. -/
  journal : ∀ f : Filter, (session f requests).journal =
    ((full requests (session f requests).replies).filter fun l => l.1.verbosity ≤ f.rank).map Line.text
  /-- A more verbose level shows all that a less verbose one does. -/
  nested : ∀ f g : Filter, f.rank ≤ g.rank → (session f requests).journal.Sublist (session g requests).journal

/-! ## One request -/

def Journal.Entry.toLine (e : Entry) : Line := (e.level, e.message)

theorem entries_submit (s : Service) (r : Request) (h : r.IsSubmission) :
    (Http.submit s r.body).entries.map Entry.toLine = linesOf r (Http.submit s r.body).reply := by
  have hpost : r.method = "POST" ∧ Http.pathOf r.target = Http.calculatePath := h
  rw [linesOf, if_pos hpost]
  unfold Http.submit
  split
  · rfl
  split
  · rfl
  next field hdecode =>
  split
  · next hnone =>
    show [Entry.toLine .expressionNotText] =
      match Submission.decode r.body with
      | .ok (some (.text _)) => [(.debug, "expression rejected")]
      | _ => [(.debug, "expression is not a string")]
    rw [hdecode]
    rcases field with _ | _ | value
    · rfl
    · cases hnone
    · rfl
  · next expression hsome =>
    unfold Service.calculate
    cases resultText expression with
    | ok text => rfl
    | error e =>
      show [Entry.toLine .expressionRejected] =
        match Submission.decode r.body with
        | .ok (some (.text _)) => [(.debug, "expression rejected")]
        | _ => [(.debug, "expression is not a string")]
      rw [hdecode]
      rcases field with _ | _ | value
      · cases hsome
      · rfl
      · cases hsome

/-- A request is recorded by the lines of its answer. -/
theorem entries_respond (s : Service) (r : Request) :
    (Http.respond s r).entries.map Entry.toLine = linesOf r (Http.respond s r).reply := by
  by_cases h : r.IsSubmission
  · rw [Http.respond_submission s h]
    exact entries_submit s r h
  · have hother : ¬ (r.method = "POST" ∧ Http.pathOf r.target = Http.calculatePath) := h
    rw [linesOf, if_neg hother]
    unfold Http.respond
    split
    · next hp =>
      split
      · next hm => exact absurd ⟨hm, hp⟩ h
      · rfl
      · rfl
      · rfl
    · rfl

/-! ## Runs -/

theorem entries_serve (s : Service) (requests : List Request) :
    ((Http.serve s requests).flatMap Http.Exchange.entries).map Entry.toLine =
      (requests.zip ((Http.serve s requests).map Http.Exchange.reply)).flatMap fun (r, reply) => linesOf r reply := by
  induction requests generalizing s with
  | nil => rfl
  | cons r requests ih =>
    simp only [Http.serve, List.flatMap_cons, List.map_append, List.map_cons, List.zip_cons_cons, entries_respond, ih]

theorem length_serve (s : Service) (requests : List Request) : (Http.serve s requests).length = requests.length := by
  induction requests generalizing s with
  | nil => rfl
  | cons r requests ih => simp only [Http.serve, List.length_cons, ih]

theorem toLine_journalOf (requests : List Request) :
    (Http.journalOf (Http.serve .fresh requests)).map Entry.toLine =
      full requests ((Http.serve .fresh requests).map Http.Exchange.reply) := by
  rw [Http.journalOf, full, List.cons_append, List.map_cons, List.map_append, entries_serve]
  rfl

/-- Selecting entries by their level is selecting their lines. -/
theorem shown_eq (f : Filter) (entries : List Entry) :
    (shown f entries).map Entry.line =
      ((entries.map Entry.toLine).filter fun l => l.1.verbosity ≤ f.rank).map Line.text := by
  rw [List.filter_map, List.map_map]
  have hfilter : shown f entries = entries.filter ((fun l : Line => decide (l.1.verbosity ≤ f.rank)) ∘ Entry.toLine) := by
    refine List.filter_congr fun e _ => ?_
    rw [Bool.eq_iff_iff, Filter.shows_iff]
    exact decide_eq_true_iff.symm
  rw [← hfilter]
  rfl

theorem shown_sublist {f g : Filter} (h : f.rank ≤ g.rank) (entries : List Entry) :
    (shown f entries).Sublist (shown g entries) := by
  have hfilter : shown f entries = (shown g entries).filter fun e => f.shows e.level := by
    rw [shown, shown, List.filter_filter]
    refine List.filter_congr fun e _ => ?_
    rw [Bool.eq_iff_iff, Bool.and_eq_true, Filter.shows_iff, Filter.shows_iff]
    omega
  rw [hfilter]
  exact List.filter_sublist

/-! ## The level -/

theorem journalFilter_eq_iff {environment : List (String × String)} {verbosity : Nat} {s : Settings} {f : Filter} :
    journalFilter environment verbosity s = f ↔ IsAsked environment verbosity s.logLevel f := by
  unfold journalFilter journalVariable
  cases hsaid : (environment.lookup "RUST_LOG").bind Filter.ofText? with
  | some g =>
    obtain ⟨text, hlookup, htext⟩ := Option.bind_eq_some_iff.1 hsaid
    have hread := ofText?_eq_some_iff.1 htext
    dsimp only
    constructor
    · rintro rfl
      exact .environment hlookup hread.1 hread.2
    · intro h
      cases h with
      | environment hlookup' hreadable hasks =>
        obtain rfl := Option.some.inj (hlookup.symm.trans hlookup')
        exact Option.some.inj (htext.symm.trans (ofText?_eq_some_iff.2 ⟨hreadable, hasks⟩))
      | info hsilent | debug hsilent | trace hsilent | settings hsilent => exact absurd hread.1 (hsilent text hlookup)
  | none =>
    have hsilent : IsSilent environment := by
      intro text hlookup
      rw [hlookup, Option.bind_some] at hsaid
      exact ofText?_eq_none_iff.1 hsaid
    constructor
    · rintro rfl
      rcases verbosity with _ | _ | _ | n
      · exact .settings hsilent rfl (ofText_eq_iff.1 rfl)
      · exact .info hsilent rfl
      · exact .debug hsilent rfl
      · exact .trace hsilent (Nat.le_add_left 3 n)
    · intro h
      cases h with
      | environment hlookup hreadable => exact absurd hreadable (hsilent _ hlookup)
      | info _ hv | debug _ hv =>
        rw [hv]
        rfl
      | trace _ hv =>
        obtain ⟨n, rfl⟩ := Nat.exists_eq_add_of_le' hv
        rfl
      | settings _ hv hasks =>
        rw [hv]
        exact ofText_eq_iff.2 hasks

theorem Filter.name_injective {l l' : Filter} (h : l.name = l'.name) : l = l' := by
  have hread := ofText?_name l
  rw [h, ofText?_name] at hread
  exact (Option.some.inj hread).symm

/-- A level that is asked for by its name is the one in effect. -/
theorem isAsked_of_name {environment : List (String × String)} {verbosity : Nat} {logLevel : String} {l : Filter}
    (h : l.name = levelText environment verbosity logLevel) : IsAsked environment verbosity logLevel l := by
  have hread := ofText?_eq_some_iff.1 (ofText?_name l)
  unfold levelText at h
  cases hlookup : environment.lookup "RUST_LOG" with
  | some text =>
    rw [hlookup] at h
    have htext : l.name = text := h
    rw [htext] at hread
    exact .environment hlookup hread.1 hread.2
  | none =>
    have hsilent : IsSilent environment := by
      intro text htext
      rw [hlookup] at htext
      cases htext
    rw [hlookup] at h
    rcases verbosity with _ | _ | _ | n
    · have htext : l.name = logLevel := h
      rw [htext] at hread
      exact .settings hsilent rfl hread.2
    · obtain rfl := @Filter.name_injective l (some .info) h
      exact .info hsilent rfl
    · obtain rfl := @Filter.name_injective l (some .debug) h
      exact .debug hsilent rfl
    · obtain rfl := @Filter.name_injective l (some .trace) h
      exact .trace hsilent (Nat.le_add_left 3 n)

/-- A server that listens has read its arguments and settings, and shows the level they ask for. -/
theorem exists_isAsked_of_listening {around : Surroundings} {arguments : List String} {address : SocketAddress}
    {f : Filter} (h : start around arguments = .listening address f) :
    ∃ options settings, CommandLine.parse arguments = .ok options ∧
      Settings.load ((options.config.map around.document).getD .none) around.environment = .ok settings ∧
      journalFilter around.environment options.verbosity settings = f := by
  unfold start at h
  split at h
  · cases h
  · cases h
  · cases h
  next options hoptions =>
  dsimp only at h
  split at h
  · cases h
  next settings hsettings =>
  split at h
  · cases h
  split at h
  · cases h
  split at h
  · cases h
    refine ⟨options, settings, hoptions, ?_, rfl⟩
    rw [← hsettings]
    cases options.config <;> rfl
  · cases h

/-! ## The law holds -/

/-- Every run of requests is recorded as the law says. -/
theorem journalLaw (requests : List Request) : JournalLaw requests where
  level := by
    intro around arguments address f h
    obtain ⟨options, settings, hoptions, hsettings, hfilter⟩ := exists_isAsked_of_listening h
    obtain ⟨uses, hspelled, hsettles⟩ := CommandLine.parse_eq_ok_iff.1 hoptions
    have hasked (l : Filter) : IsAsked around.environment options.verbosity settings.logLevel l ↔ f = l := by
      rw [← hfilter]
      exact journalFilter_eq_iff.symm
    exact ⟨uses, options, settings, hspelled, hsettles, hsettings, hasked, fun l hl => (hasked l).1 (isAsked_of_name hl)⟩
  answered := by
    intro f
    rw [session, List.length_map, length_serve]
  replies := fun f g => rfl
  journal := by
    intro f
    rw [session, shown_eq, toLine_journalOf]
  nested := fun f g h => (shown_sublist h _).map _

/-- The narrower of two directives decides, whatever the arguments ask for. -/
theorem listening_with_directives :
    start ⟨[("RUST_LOG", "warn,calculatrice_serveur=DEBUG")], fun _ => .none, fun _ => true⟩ ["-vvv"] =
        .listening (.v4 ⟨0, 0, 0, 0⟩ 8080) (some .debug) ∧
      (∃ uses options logLevel, CommandLine.Spelled ["-vvv"] uses ∧ CommandLine.Settles uses options ∧
        IsAsked [("RUST_LOG", "warn,calculatrice_serveur=DEBUG")] options.verbosity logLevel (some .debug)) ∧
      (session (some .debug) [⟨"POST", "/api/v1/calculate", [0x7b, 0x7d]⟩]).journal =
        ["INFO HTTP server bound on", "DEBUG expression is not a string", "INFO HTTP server shutting down gracefully"] := by
  have hstart : start ⟨[("RUST_LOG", "warn,calculatrice_serveur=DEBUG")], fun _ => .none, fun _ => true⟩ ["-vvv"] =
      .listening (.v4 ⟨0, 0, 0, 0⟩ 8080) (some .debug) := by decide +kernel
  have law := journalLaw [⟨"POST", "/api/v1/calculate", [0x7b, 0x7d]⟩]
  obtain ⟨uses, options, settings, hspelled, hsettles, -, hasked, -⟩ := law.level _ _ _ _ hstart
  refine ⟨hstart, ⟨uses, options, settings.logLevel, hspelled, hsettles, (hasked _).2 rfl⟩, ?_⟩
  rw [law.journal]
  decide +kernel

end Calculator
