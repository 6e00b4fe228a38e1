/-
  Calculator.Settings — where the server listens and what its journal shows.

  Three layers give settings: the defaults, a document and the environment, each going on
  top of the one before. Of a key only the topmost value counts, and it has to be text;
  keys that nobody asks for do not matter. A document that is named but not there is an
  error of its own, which comes before all others.
-/

import Calculator.Address
import Calculator.Settings.Document
import Calculator.Settings.Environment

namespace Calculator

structure Settings where
  /-- The address to listen on, as it is written. -/
  bindAddress : String
  /-- What the journal shows, where nothing else says so. -/
  logLevel : String
  deriving DecidableEq, Repr

inductive Settings.Error where
  | missingDocument (path : String)
  | invalid
  | badAddress (text : String)
  deriving DecidableEq, Repr

inductive Settings.Source where
  | none
  | missing (path : String)
  /-- A file that holds no text. -/
  | unreadable
  | text (content : String)
  deriving DecidableEq, Repr

namespace Settings

def Error.message : Error → String
  | missingDocument path => "config file does not exist: " ++ path
  | invalid => "invalid configuration"
  | badAddress text => "Invalid bind address '" ++ text ++ "'"

def defaults : Settings := ⟨"0.0.0.0:8080", "info"⟩

def bindAddressKey : String := "bind_addr"

def logLevelKey : String := "log_level"

def toDict (s : Settings) : Dict := [(bindAddressKey, .text s.bindAddress), (logLevelKey, .text s.logLevel)]

/-- The settings of layers, the lowest first. -/
def ofLayers (layers : List Dict) : Except Error Settings :=
  let text? := fun key => (Dict.get? layers.flatten key).bind Value.text?
  match text? bindAddressKey, text? logLevelKey with
  | some bindAddress, some logLevel => .ok ⟨bindAddress, logLevel⟩
  | _, _ => .error .invalid

def Source.dict : Source → Except Error Dict
  | none => .ok []
  | missing path => .error (.missingDocument path)
  | unreadable => .error .invalid
  | text content =>
    match Document.dict? content with
    | some d => .ok d
    | Option.none => .error .invalid

def load (source : Source) (environment : List (String × String)) : Except Error Settings := do
  ofLayers [defaults.toDict, ← source.dict, Environment.dict environment]

def address (s : Settings) : Except Error SocketAddress :=
  match SocketAddress.ofString? s.bindAddress with
  | some address => .ok address
  | none => .error (.badAddress s.bindAddress)

end Settings

end Calculator
