/-
  Calculator.Proofs.Settings — which layer decides a setting, and what the program makes of it.

  The topmost layer that mentions a key decides it, and in that layer the last entry of the key (`Decides`). The entries
  of the environment are what its variables say (`environment_gives_iff`). Settings are loaded just if both of their keys
  are decided by text, and then they are these two texts. So nothing matters but what decides: not the other keys, and
  not what a layer further up covers (`AgreeOn`). Each key decides for itself.

  The program loads its settings before it looks at the address given as an argument. That one takes the place of the
  loaded address, if there is one (`Program.Follows`).

  Main statement: `layerLaw`.
-/

import Mathlib.Logic.ExistsUnique
import Calculator.Program
import Calculator.Proofs.CommandLine
import Calculator.Proofs.Entry
import Calculator.Proofs.Settings.Environment

namespace Calculator

namespace Settings

/-! ## Layers -/

def Dict.Mentions (d : Dict) (key : String) : Prop := ∃ entry ∈ d, entry.1 = key

/-- The last entry of the key in the layer has this value. -/
def Dict.Gives (d : Dict) (key : String) (v : Value) : Prop :=
  ∃ front back, d = front ++ (key, v) :: back ∧ ∀ entry ∈ back, entry.1 ≠ key

/-- Of the layers, the topmost first, the first one that mentions the key gives it this value. -/
inductive Decides : List Dict → String → Value → Prop
  | top {d : Dict} {ds : List Dict} {key : String} {v : Value} (h : d.Gives key v) : Decides (d :: ds) key v
  | next {d : Dict} {ds : List Dict} {key : String} {v : Value} (hno : ¬ d.Mentions key) (h : Decides ds key v) :
      Decides (d :: ds) key v

/-- The layers of a document and the environment's variables, the topmost first. -/
def layers (document : Dict) (environment : List (String × String)) : List Dict :=
  [Environment.dict environment, document, defaults.toDict]

def IsKey (key : String) : Prop := key = bindAddressKey ∨ key = logLevelKey

/-- The two environments give the key the same value, and so do the two documents unless the environments mention it. -/
structure AgreeOn (key : String) (document document' : Dict) (environment environment' : List (String × String)) : Prop where
  environments : ∀ v, (Environment.dict environment).Gives key v ↔ (Environment.dict environment').Gives key v
  documents : ¬ (Environment.dict environment).Mentions key → ∀ v, document.Gives key v ↔ document'.Gives key v

section

variable {d e : Dict} {ds : List Dict} {key : String} {v : Value} {document document' : Dict}
  {environment environment' : List (String × String)} {s : Settings}

theorem get?_eq_some_iff : d.get? key = some v ↔ d.Gives key v := lastEntry_eq_some_iff

theorem get?_eq_none_iff : d.get? key = none ↔ ¬ d.Mentions key := by
  simp only [Dict.get?, lastEntry_eq_none_iff, Dict.Mentions, not_exists, not_and, ne_eq]

/-- A layer that stands behind another one goes on top of it. -/
theorem get?_append : Dict.get? (d ++ e) key = (e.get? key).or (d.get? key) := by
  rw [Dict.get?, List.reverse_append, List.find?_append, Option.map_or]
  rfl

theorem get?_flatten_cons : Dict.get? (d :: ds).reverse.flatten key = (d.get? key).or (Dict.get? ds.reverse.flatten key) := by
  rw [List.reverse_cons, List.flatten_append, List.flatten_singleton, get?_append]

theorem get?_flatten_eq_some_iff : Dict.get? ds.reverse.flatten key = some v ↔ Decides ds key v := by
  induction ds with
  | nil =>
    constructor
    · intro h
      cases h
    · intro h
      cases h
  | cons d ds ih =>
    rw [get?_flatten_cons, Option.or_eq_some_iff, get?_eq_some_iff, get?_eq_none_iff, ih]
    constructor
    · intro h
      rcases h with h | ⟨hno, h⟩
      · exact .top h
      · exact .next hno h
    · intro h
      cases h with
      | top h => exact .inl h
      | next hno h => exact .inr ⟨hno, h⟩

theorem Decides.unique {w : Value} (hv : Decides ds key v) (hw : Decides ds key w) : v = w := by
  rw [← get?_flatten_eq_some_iff] at hv hw
  exact Option.some.inj (hv.symm.trans hw)

/-- If text decides both keys, nothing else decides any of them. -/
theorem not_decides_other {b l : String} (hbind : Decides ds bindAddressKey (.text b)) (hlog : Decides ds logLevelKey (.text l)) :
    ¬ ∃ key v, IsKey key ∧ Decides ds key v ∧ ∀ t, v ≠ .text t := by
  intro h
  obtain ⟨key, v, hkey, hv, hno⟩ := h
  rcases hkey with rfl | rfl
  · exact hno b (hv.unique hbind)
  · exact hno l (hv.unique hlog)

/-- The defaults decide what nothing above them mentions. -/
theorem exists_decides (document : Dict) (environment : List (String × String)) (hkey : IsKey key) :
    ∃ v, Decides (layers document environment) key v := by
  have hdefault : ∃ v, defaults.toDict.get? key = some v := by
    rcases hkey with rfl | rfl
    · exact ⟨_, rfl⟩
    · exact ⟨_, rfl⟩
  obtain ⟨v, hv⟩ := hdefault
  have hsome : (Dict.get? (layers document environment).reverse.flatten key).isSome := by
    simp [layers, get?_flatten_cons, hv, -List.reverse_cons]
  obtain ⟨w, hw⟩ := Option.isSome_iff_exists.1 hsome
  exact ⟨w, get?_flatten_eq_some_iff.1 hw⟩

/-- Layers agree on a key that the upper ones agree on, and the lower ones where those leave it open. -/
theorem AgreeOn.get?_eq (h : AgreeOn key document document' environment environment') :
    Dict.get? (layers document environment).reverse.flatten key =
      Dict.get? (layers document' environment').reverse.flatten key := by
  have hvariables : (Environment.dict environment).get? key = (Environment.dict environment').get? key := by
    ext v
    rw [get?_eq_some_iff, get?_eq_some_iff, h.environments]
  simp only [layers, get?_flatten_cons, ← hvariables]
  cases hnone : (Environment.dict environment).get? key with
  | some v => rfl
  | none =>
    have hdocuments : document.get? key = document'.get? key := by
      ext v
      rw [get?_eq_some_iff, get?_eq_some_iff, h.documents (get?_eq_none_iff.1 hnone)]
    rw [hdocuments]

theorem AgreeOn.decides_iff (h : AgreeOn key document document' environment environment') :
    Decides (layers document environment) key v ↔ Decides (layers document' environment') key v := by
  rw [← get?_flatten_eq_some_iff, ← get?_flatten_eq_some_iff, h.get?_eq]

/-- What the environment gives is what the last of the variables says that say anything of the key. -/
theorem environment_gives_iff : (Environment.dict environment).Gives key v ↔
    ∃ front name text back, environment = front ++ (name, text) :: back ∧ Environment.Says name text key v ∧
      ∀ other ∈ back, ∀ w, ¬ Environment.Says other.1 other.2 key w := by
  have hsilent {others : List (String × String)} : (∀ entry ∈ Environment.dict others, entry.1 ≠ key) ↔
      ∀ other ∈ others, ∀ w, ¬ Environment.Says other.1 other.2 key w := by
    simp only [Environment.dict, List.mem_filterMap, ← Environment.entry?_eq_some_iff]
    constructor
    · intro h other hother w hw
      exact h (key, w) ⟨other, hother, hw⟩ rfl
    · rintro h ⟨key', w⟩ ⟨other, hother, hw⟩ rfl
      exact h other hother w hw
  constructor
  · intro h
    obtain ⟨front, back, hdict, hback⟩ := h
    obtain ⟨front', tail, rfl, -, htail⟩ := List.filterMap_eq_append_iff.1 hdict
    obtain ⟨before, ⟨name, text⟩, back', rfl, -, hentry, rfl⟩ := List.filterMap_eq_cons_iff.1 htail
    exact ⟨front' ++ before, name, text, back', by simp, Environment.entry?_eq_some_iff.1 hentry, hsilent.1 hback⟩
  · intro h
    obtain ⟨front, name, text, back, rfl, hsaid, hback⟩ := h
    have hentry := Environment.entry?_eq_some_iff.2 hsaid
    exact ⟨Environment.dict front, Environment.dict back, by simp [Environment.dict, hentry], hsilent.2 hback⟩

theorem environment_mentions_iff : (Environment.dict environment).Mentions key ↔
    ∃ name text v, (name, text) ∈ environment ∧ Environment.Says name text key v := by
  simp only [Dict.Mentions, Environment.dict, List.mem_filterMap, ← Environment.entry?_eq_some_iff]
  constructor
  · rintro ⟨⟨key', v⟩, ⟨⟨name, text⟩, hmem, hentry⟩, rfl⟩
    exact ⟨name, text, v, hmem, hentry⟩
  · rintro ⟨name, text, v, hmem, hentry⟩
    exact ⟨(key, v), ⟨(name, text), hmem, hentry⟩, rfl⟩

/-- No two of the variables say something of one key. -/
def KeysDiffer (environment : List (String × String)) : Prop :=
  environment.Pairwise fun a b => ∀ key v w, Environment.Says a.1 a.2 key v → ¬ Environment.Says b.1 b.2 key w

theorem environment_gives_iff_mem (h : KeysDiffer environment) : (Environment.dict environment).Gives key v ↔
    ∃ name text, (name, text) ∈ environment ∧ Environment.Says name text key v := by
  rw [environment_gives_iff]
  constructor
  · intro hgives
    obtain ⟨front, name, text, back, rfl, hsaid, -⟩ := hgives
    exact ⟨name, text, by simp, hsaid⟩
  · intro hsome
    obtain ⟨name, text, hmem, hsaid⟩ := hsome
    obtain ⟨front, back, rfl⟩ := List.append_of_mem hmem
    have hback := (List.pairwise_cons.1 (List.pairwise_append.1 h).2.1).1
    exact ⟨front, name, text, back, rfl, hsaid, fun other hother w => hback other hother key v w hsaid⟩

/-! ## Loading -/

def withValue (s : Settings) (key : String) (v : Value) : Except Error Settings :=
  if key = bindAddressKey then v.text?.elim (.error .invalid) fun t => .ok { s with bindAddress := t }
  else if key = logLevelKey then v.text?.elim (.error .invalid) fun t => .ok { s with logLevel := t }
  else .ok s

theorem bind_text?_eq_some_iff {value : Option Value} {t : String} :
    value.bind Value.text? = some t ↔ value = some (.text t) := by
  rw [Option.bind_eq_some_iff]
  constructor
  · intro h
    obtain ⟨v, rfl, h⟩ := h
    cases v with
    | text => rw [Option.some.inj h]
    | null | bool | number | list | dict => cases h
  · intro h
    exact ⟨_, h, rfl⟩

theorem ofLayers_eq (ds : List Dict) :
    ofLayers ds = match (Dict.get? ds.flatten bindAddressKey).bind Value.text?,
        (Dict.get? ds.flatten logLevelKey).bind Value.text? with
      | some bindAddress, some logLevel => .ok ⟨bindAddress, logLevel⟩
      | _, _ => .error .invalid := rfl

/-- Layers give settings if each of the two keys has text on top. -/
theorem ofLayers_cases (ds : List Dict) :
    (∃ s, ofLayers ds = .ok s ∧ Dict.get? ds.flatten bindAddressKey = some (.text s.bindAddress) ∧
      Dict.get? ds.flatten logLevelKey = some (.text s.logLevel)) ∨
    (ofLayers ds = .error .invalid ∧ ∃ key, IsKey key ∧ ∀ t, Dict.get? ds.flatten key ≠ some (.text t)) := by
  have hno {key : String} (h : (Dict.get? ds.flatten key).bind Value.text? = none) (t : String) :
      Dict.get? ds.flatten key ≠ some (.text t) := by
    intro ht
    rw [bind_text?_eq_some_iff.2 ht] at h
    cases h
  rw [ofLayers_eq]
  cases hbind : (Dict.get? ds.flatten bindAddressKey).bind Value.text? with
  | none => exact .inr ⟨rfl, _, .inl rfl, hno hbind⟩
  | some b =>
    cases hlog : (Dict.get? ds.flatten logLevelKey).bind Value.text? with
    | none => exact .inr ⟨rfl, _, .inr rfl, hno hlog⟩
    | some l => exact .inl ⟨⟨b, l⟩, rfl, bind_text?_eq_some_iff.1 hbind, bind_text?_eq_some_iff.1 hlog⟩

variable {source source' : Source} (hsource : source.dict = .ok document)

include hsource

theorem load_eq_ofLayers : load source environment = ofLayers (layers document environment).reverse := by
  rw [load, hsource]
  rfl

/-- Settings are the texts that decide the two keys; without them some key is decided by what is no text. -/
theorem load_cases (environment : List (String × String)) :
    (∃ s, load source environment = .ok s ∧ Decides (layers document environment) bindAddressKey (.text s.bindAddress) ∧
      Decides (layers document environment) logLevelKey (.text s.logLevel)) ∨
    (load source environment = .error .invalid ∧
      ∃ key v, IsKey key ∧ Decides (layers document environment) key v ∧ ∀ t, v ≠ .text t) := by
  simp only [load_eq_ofLayers hsource, ← get?_flatten_eq_some_iff]
  rcases ofLayers_cases (layers document environment).reverse with h | ⟨h, key, hkey, hno⟩
  · exact .inl h
  · obtain ⟨v, hv⟩ := exists_decides document environment hkey
    have hv := get?_flatten_eq_some_iff.2 hv
    exact .inr ⟨h, key, v, hkey, hv, fun t ht => hno t (ht ▸ hv)⟩

theorem load_eq_ok_iff : load source environment = .ok s ↔
    Decides (layers document environment) bindAddressKey (.text s.bindAddress) ∧
      Decides (layers document environment) logLevelKey (.text s.logLevel) := by
  rcases load_cases hsource environment with ⟨s', h, hbind, hlog⟩ | ⟨h, hother⟩
  · rw [h]
    constructor
    · intro he
      cases he
      exact ⟨hbind, hlog⟩
    · intro hs
      obtain ⟨b, l⟩ := s
      cases hbind.unique hs.1
      cases hlog.unique hs.2
      rfl
  · rw [h]
    constructor
    · intro he
      cases he
    · intro hs
      exact absurd hother (not_decides_other hs.1 hs.2)

theorem load_eq_error_iff {err : Error} : load source environment = .error err ↔
    err = .invalid ∧ ∃ key v, IsKey key ∧ Decides (layers document environment) key v ∧ ∀ t, v ≠ .text t := by
  rcases load_cases hsource environment with ⟨s, h, hbind, hlog⟩ | ⟨h, hother⟩
  · rw [h]
    constructor
    · intro he
      cases he
    · intro he
      exact absurd he.2 (not_decides_other hbind hlog)
  · rw [h]
    constructor
    · intro he
      cases he
      exact ⟨rfl, hother⟩
    · intro he
      rw [he.1]

theorem load_congr (hsource' : source'.dict = .ok document')
    (hbind : AgreeOn bindAddressKey document document' environment environment')
    (hlog : AgreeOn logLevelKey document document' environment environment') :
    load source environment = load source' environment' := by
  rw [load_eq_ofLayers hsource, load_eq_ofLayers hsource', ofLayers_eq, ofLayers_eq, hbind.get?_eq, hlog.get?_eq]

/-- Another variable on top of the others sets its own key and no other one. -/
theorem load_variable (hload : load source environment = .ok s) {name text : String}
    (hsaid : Environment.Says name text key v) : load source (environment ++ [(name, text)]) = s.withValue key v := by
  have hentry := Environment.entry?_eq_some_iff.2 hsaid
  have hdict : Environment.dict (environment ++ [(name, text)]) = Environment.dict environment ++ [(key, v)] := by
    simp [Environment.dict, hentry]
  have hget (key' : String) : Dict.get? (layers document (environment ++ [(name, text)])).reverse.flatten key' =
      if key = key' then some v else Dict.get? (layers document environment).reverse.flatten key' := by
    simp only [layers, get?_flatten_cons, hdict, get?_append]
    split
    · next h =>
      subst h
      simp [Dict.get?]
    · next h => simp [Dict.get?, h]
  obtain ⟨hbind, hlog⟩ := (load_eq_ok_iff hsource).1 hload
  rw [← get?_flatten_eq_some_iff] at hbind hlog
  rw [load_eq_ofLayers hsource, ofLayers_eq, hget, hget, hbind, hlog, withValue]
  by_cases hkey : key = bindAddressKey
  · rw [if_pos hkey, if_pos hkey, if_neg (by rw [hkey]; decide)]
    cases v <;> rfl
  · rw [if_neg hkey, if_neg hkey]
    by_cases hkey : key = logLevelKey
    · rw [if_pos hkey, if_pos hkey]
      cases v <;> rfl
    · rw [if_neg hkey, if_neg hkey]
      rfl

end

end Settings

/-! ## The program -/

namespace Program

open Settings

variable {around : Surroundings} {arguments : List String} {options : CommandLine.Options} {source : Source}
  {environment : List (String × String)}

/-- Among these surroundings the arguments ask for these options, and the settings are those of this document and these
variables. -/
structure Reads (around : Surroundings) (arguments : List String) (options : CommandLine.Options) (source : Source)
    (environment : List (String × String)) : Prop where
  arguments : ∃ uses, CommandLine.Spelled arguments uses ∧ CommandLine.Settles uses options
  source : options.config.elim .none around.document = source
  environment : around.environment = environment

/-- The program with these settings: it prints them, or listens at their address if that is one and can be bound. -/
inductive Follows (around : Surroundings) (options : CommandLine.Options) (s : Settings) : Outcome → Prop
  | printed (h : options.printConfig = true) : Follows around options s (.ended 0 (settingsText s) "")
  | misspelled (h : options.printConfig = false) (haddress : SocketAddress.ofString? s.bindAddress = none) :
      Follows around options s (.ended 1 "" ("Error: Invalid bind address '" ++ s.bindAddress ++ "'"))
  | listening {address : SocketAddress} (h : options.printConfig = false)
      (haddress : SocketAddress.ofString? s.bindAddress = some address) (hbind : around.canBind address = true) :
      Follows around options s (.listening address (journalFilter around.environment options.verbosity s))
  | taken {address : SocketAddress} (h : options.printConfig = false)
      (haddress : SocketAddress.ofString? s.bindAddress = some address) (hbind : around.canBind address = false) :
      Follows around options s (.ended 1 "" ("Error: cannot bind " ++ address.text))

def proceed (around : Surroundings) (options : CommandLine.Options) (s : Settings) : Outcome :=
  if options.printConfig then .ended 0 (settingsText s) ""
  else match s.address with
    | .error err => failure err.message
    | .ok address =>
      if around.canBind address then .listening address (journalFilter around.environment options.verbosity s)
      else cannotBind address

theorem follows_proceed (around : Surroundings) (options : CommandLine.Options) (s : Settings) :
    Follows around options s (proceed around options s) := by
  unfold proceed
  split
  · next hprint => exact .printed hprint
  next hprint =>
  have hprint : options.printConfig = false := by simpa using hprint
  unfold address
  cases haddress : SocketAddress.ofString? s.bindAddress with
  | none => exact .misspelled hprint haddress
  | some address =>
    dsimp only
    split
    · next hbind => exact .listening hprint haddress hbind
    · next hbind => exact .taken hprint haddress (by simpa using hbind)

theorem eq_proceed_of_follows {s : Settings} {outcome : Outcome} (h : Follows around options s outcome) :
    outcome = proceed around options s := by
  unfold proceed address
  cases h with
  | printed h => rw [if_pos h]
  | misspelled h haddress =>
    rw [h, haddress]
    rfl
  | listening h haddress hbind =>
    rw [h, haddress]
    simp [hbind]
  | @taken address h haddress hbind =>
    rw [h, haddress]
    simp only [hbind, cannotBind, failure, ← String.append_assoc]
    rfl

/-- The program loads its settings, and looks at the address given as an argument only if that succeeds. -/
theorem start_eq (h : Reads around arguments options source environment) :
    start around arguments = match load source environment with
      | .error err => failure err.message
      | .ok s => proceed around options { s with bindAddress := options.bind.getD s.bindAddress } := by
  obtain ⟨harguments, rfl, rfl⟩ := h
  unfold start
  rw [CommandLine.parse_eq_ok_iff.2 harguments]
  dsimp only
  cases options.config with
  | none => rfl
  | some path => rfl

end Program

/-! ## Settings of three layers and an argument -/

open Settings

/-- What settings come from a document and the environment's variables, and what the program makes of them. -/
structure LayerLaw (source : Source) (document : Dict) (environment : List (String × String)) : Prop where
  /-- One value decides each key. -/
  decided : ∀ key, IsKey key → ∃! v, Decides (layers document environment) key v
  /-- The environment mentions what its variables say, and gives what the last of them says. -/
  mentioned : ∀ key, (Environment.dict environment).Mentions key ↔
    ∃ name text v, (name, text) ∈ environment ∧ Environment.Says name text key v
  given : ∀ key v, (Environment.dict environment).Gives key v ↔
    ∃ front name text back, environment = front ++ (name, text) :: back ∧ Environment.Says name text key v ∧
      ∀ other ∈ back, ∀ w, ¬ Environment.Says other.1 other.2 key w
  single : KeysDiffer environment → ∀ key v, (Environment.dict environment).Gives key v ↔
    ∃ name text, (name, text) ∈ environment ∧ Environment.Says name text key v
  loaded : ∀ s, load source environment = .ok s ↔
    Decides (layers document environment) bindAddressKey (.text s.bindAddress) ∧
      Decides (layers document environment) logLevelKey (.text s.logLevel)
  refused : ∀ err, load source environment = .error err ↔
    err = .invalid ∧ ∃ key v, IsKey key ∧ Decides (layers document environment) key v ∧ ∀ t, v ≠ .text t
  /-- Other keys and covered values do not matter. -/
  irrelevant : ∀ source' document' environment', source'.dict = .ok document' →
    AgreeOn bindAddressKey document document' environment environment' →
    AgreeOn logLevelKey document document' environment environment' → load source environment = load source' environment'
  bindAddress : ∀ source' document' environment' s s', source'.dict = .ok document' →
    AgreeOn bindAddressKey document document' environment environment' → load source environment = .ok s →
    load source' environment' = .ok s' → s.bindAddress = s'.bindAddress
  logLevel : ∀ source' document' environment' s s', source'.dict = .ok document' →
    AgreeOn logLevelKey document document' environment environment' → load source environment = .ok s →
    load source' environment' = .ok s' → s.logLevel = s'.logLevel
  /-- One more variable sets its own key. -/
  overridden : ∀ s, load source environment = .ok s → ∀ name text key v, Environment.Says name text key v →
    load source (environment ++ [(name, text)]) = s.withValue key v
  /-- An address given as an argument takes the place of the loaded one. -/
  started : ∀ around arguments options s, Program.Reads around arguments options source environment →
    load source environment = .ok s →
    Program.Follows around options { s with bindAddress := options.bind.getD s.bindAddress } (Program.start around arguments)
  /-- It does not make up for settings that cannot be loaded. -/
  unstarted : ∀ around arguments options key v, Program.Reads around arguments options source environment →
    IsKey key → Decides (layers document environment) key v → (∀ t, v ≠ .text t) →
    Program.start around arguments = .ended 1 "" "Error: invalid configuration"

theorem layerLaw {source : Source} {document : Dict} (hsource : source.dict = .ok document)
    (environment : List (String × String)) : LayerLaw source document environment where
  decided := by
    intro key hkey
    obtain ⟨v, hv⟩ := exists_decides document environment hkey
    exact ⟨v, hv, fun w hw => hw.unique hv⟩
  mentioned := fun key => environment_mentions_iff
  given := fun key v => environment_gives_iff
  single := fun hdiffer key v => environment_gives_iff_mem hdiffer
  loaded := fun s => load_eq_ok_iff hsource
  refused := fun err => load_eq_error_iff hsource
  irrelevant := fun source' document' environment' hsource' => load_congr hsource hsource'
  bindAddress := by
    intro source' document' environment' s s' hsource' hagree hload hload'
    have hbind := hagree.decides_iff.1 ((load_eq_ok_iff hsource).1 hload).1
    exact Value.text.inj (hbind.unique ((load_eq_ok_iff hsource').1 hload').1)
  logLevel := by
    intro source' document' environment' s s' hsource' hagree hload hload'
    have hlog := hagree.decides_iff.1 ((load_eq_ok_iff hsource).1 hload).2
    exact Value.text.inj (hlog.unique ((load_eq_ok_iff hsource').1 hload').2)
  overridden := fun s hload name text key v hsaid => load_variable hsource hload hsaid
  started := by
    intro around arguments options s hreads hload
    rw [Program.start_eq hreads, hload]
    exact Program.follows_proceed ..
  unstarted := by
    intro around arguments options key v hreads hkey hv hno
    have hload := (load_eq_error_iff hsource).2 ⟨rfl, key, v, hkey, hv, hno⟩
    rw [Program.start_eq hreads, hload]
    rfl

/-- A variable covers the list that the document has in the place of an address, and an address given as an argument
takes the place of the variable's. -/
theorem start_covered_and_replaced :
    let around : Program.Surroundings :=
      ⟨[("calc_Bind_Addr", "10.0.0.1:80")], fun _ => .text "bind_addr: [1]\nlog_level: warn\nport: 1\n", fun _ => true⟩
    Program.start around ["--config", "a"] = .listening (.v4 ⟨10, 0, 0, 1⟩ 80) (some .warn) ∧
      Program.start around ["-vca", "--bind=127.0.0.1:3000"] = .listening (.v4 ⟨127, 0, 0, 1⟩ 3000) (some .info) := by
  intro around
  have hsource : Source.dict (.text "bind_addr: [1]\nlog_level: warn\nport: 1\n") =
      .ok [("bind_addr", .list [.number "1"]), ("log_level", .text "warn"), ("port", .number "1")] := rfl
  have law := layerLaw hsource [("calc_Bind_Addr", "10.0.0.1:80")]
  have hsaid : Environment.Says "calc_Bind_Addr" "10.0.0.1:80" "bind_addr" (.text "10.0.0.1:80") :=
    Environment.entry?_eq_some_iff.1 rfl
  have hbind := (law.given "bind_addr" _).2 ⟨[], _, _, [], rfl, hsaid, nofun⟩
  have hlog : ¬ (Environment.dict [("calc_Bind_Addr", "10.0.0.1:80")]).Mentions "log_level" := by
    rw [law.mentioned]
    rintro ⟨name, text, v, hmem, hother⟩
    cases List.mem_singleton.1 hmem
    have hentry := (Environment.entry?_eq_some_iff.2 hsaid).symm.trans (Environment.entry?_eq_some_iff.2 hother)
    exact absurd (Prod.mk.inj (Option.some.inj hentry)).1 (by decide)
  have hload := (law.loaded ⟨"10.0.0.1:80", "warn"⟩).2
    ⟨.top hbind, .next hlog (.top ⟨[_], [("port", .number "1")], rfl, by simp [logLevelKey]⟩)⟩
  constructor
  · have hreads : Program.Reads around ["--config", "a"] ⟨some "a", none, false, 0⟩ _ _ :=
      ⟨CommandLine.parse_eq_ok_iff.1 rfl, rfl, rfl⟩
    rw [Program.eq_proceed_of_follows (law.started _ _ _ _ hreads hload)]
    decide +kernel
  · have hreads : Program.Reads around ["-vca", "--bind=127.0.0.1:3000"] ⟨some "a", some "127.0.0.1:3000", false, 1⟩ _ _ :=
      ⟨CommandLine.parse_eq_ok_iff.1 rfl, rfl, rfl⟩
    rw [Program.eq_proceed_of_follows (law.started _ _ _ _ hreads hload)]
    decide +kernel

/-- A list in the document is no address, and the one given as an argument comes too late. -/
example : Program.start ⟨[], fun _ => .text "bind_addr: [1]\n", fun _ => true⟩ ["--config", "a", "--bind", "127.0.0.1:1"] =
    .ended 1 "" "Error: invalid configuration" := by decide +kernel

end Calculator
