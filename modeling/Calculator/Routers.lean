/-
  Calculator.Routers — several routers side by side, each with a service of its own.
-/

import Calculator.Handles
import Calculator.Http

namespace Calculator

/-- The service of each router; one that is not used yet has a fresh service. -/
abbrev Routers := Nat → Service

namespace Routers

def initial : Routers := fun _ => .fresh

def serve (k : Routers) : List (Nat × Http.Request) → List Http.Reply
  | [] => []
  | (router, request) :: requests =>
    let exchange := Http.respond (k router) request
    exchange.reply :: serve (update k router exchange.service) requests

end Routers

end Calculator
