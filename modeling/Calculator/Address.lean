/-
  Calculator.Address — socket addresses, read and written.

  An address is `a.b.c.d:port`, or `[groups]:port` with an optional `%scope` behind the
  groups. Octets are written without leading zeros, ports and scopes with as many as one
  likes. Of the eight groups, at most four hexadecimal digits each, `::` stands for one or
  more zero groups, and the last two may be written as four octets, unless `::` follows.

  Written, groups have small letters and no leading zeros, and the first of the longest
  runs of at least two zero groups becomes `::`. Addresses under `::ffff:` keep the octets.
-/

namespace Calculator

structure Ipv4 where
  a : Nat
  b : Nat
  c : Nat
  d : Nat
  deriving DecidableEq, Repr

def Ipv4.text (ip : Ipv4) : String :=
  ".".intercalate [ip.a.repr, ip.b.repr, ip.c.repr, ip.d.repr]

inductive SocketAddress where
  | v4 (ip : Ipv4) (port : Nat)
  /-- Eight groups of 16 bits; a scope of 0 is none. -/
  | v6 (groups : List Nat) (scope port : Nat)
  deriving DecidableEq, Repr

namespace SocketAddress

/-! ## Reading -/

def digitValue? (base : Nat) (c : Char) : Option Nat :=
  let value :=
    if c.isDigit then c.toNat - '0'.toNat
    else if 'a' ≤ c ∧ c ≤ 'z' then c.toNat - 'a'.toNat + 10
    else if 'A' ≤ c ∧ c ≤ 'Z' then c.toNat - 'A'.toNat + 10
    else base
  if value < base then some value else none

/-- How a number is written, and how large it may be. -/
structure Width where
  base : Nat
  /-- The most digits, if there is such a bound. -/
  digits : Option Nat
  /-- A zero may stand in front of other digits. -/
  leadingZeros : Bool
  bound : Nat

def octet : Width := ⟨10, some 3, false, UInt8.size⟩

def group : Width := ⟨16, some 4, true, UInt16.size⟩

def portNumber : Width := ⟨10, none, true, UInt16.size⟩

def scopeNumber : Width := ⟨10, none, true, UInt32.size⟩

/-- All digits at the front, as one number. -/
def number? (w : Width) (s : List Char) : Option (Nat × List Char) :=
  let isDigit := fun c => (digitValue? w.base c).isSome
  let digits := s.takeWhile isDigit
  let value := (digits.filterMap (digitValue? w.base)).foldl (fun n d => n * w.base + d) 0
  if digits.isEmpty || w.digits.any (· < digits.length) || (!w.leadingZeros && digits.head? == some '0' && digits.length > 1)
      || value ≥ w.bound then none
  else some (value, s.dropWhile isDigit)

def char? (c : Char) : List Char → Option (List Char)
  | d :: rest => if d = c then some rest else none
  | [] => none

def ipv4? (s : List Char) : Option (Ipv4 × List Char) := do
  let (a, s) ← number? octet s
  let (b, s) ← number? octet (← char? '.' s)
  let (c, s) ← number? octet (← char? '.' s)
  let (d, s) ← number? octet (← char? '.' s)
  return (⟨a, b, c, d⟩, s)

structure Groups where
  groups : List Nat
  /-- The last two were written as octets. -/
  octets : Bool
  rest : List Char

/-- At most `room` groups, a colon in front of each but the first. -/
def groups (first : Bool) (room : Nat) (s : List Char) : Groups :=
  match room with
  | 0 => ⟨[], false, s⟩
  | room + 1 =>
    match if first then some s else char? ':' s with
    | none => ⟨[], false, s⟩
    | some digits =>
      match if room = 0 then none else ipv4? digits with
      | some (ip, rest) => ⟨[ip.a * 256 + ip.b, ip.c * 256 + ip.d], true, rest⟩
      | none =>
        match number? group digits with
        | none => ⟨[], false, s⟩
        | some (g, rest) =>
          let more := groups false room rest
          ⟨g :: more.groups, more.octets, more.rest⟩

def ipv6? (s : List Char) : Option (List Nat × List Char) :=
  let front := groups true 8 s
  if front.groups.length = 8 then some (front.groups, front.rest)
  else if front.octets then none
  else do
    let rest ← char? ':' (← char? ':' front.rest)
    let back := groups true (7 - front.groups.length) rest
    let zeros := List.replicate (8 - front.groups.length - back.groups.length) 0
    return (front.groups ++ zeros ++ back.groups, back.rest)

def scope (s : List Char) : Nat × List Char :=
  match char? '%' s >>= number? scopeNumber with
  | some (n, rest) => (n, rest)
  | none => (0, s)

def port? (s : List Char) : Option (Nat × List Char) := do number? portNumber (← char? ':' s)

def v4? (s : List Char) : Option (SocketAddress × List Char) := do
  let (ip, s) ← ipv4? s
  let (port, s) ← port? s
  return (.v4 ip port, s)

def v6? (s : List Char) : Option (SocketAddress × List Char) := do
  let (groups, s) ← ipv6? (← char? '[' s)
  let (scope, s) := scope s
  let (port, s) ← port? (← char? ']' s)
  return (.v6 groups scope port, s)

def ofString? (text : String) : Option SocketAddress :=
  match (v4? text.toList).or (v6? text.toList) with
  | some (address, []) => some address
  | _ => none

/-! ## Writing -/

def groupText (g : Nat) : String := String.ofList (Nat.toDigits 16 g)

def groupsText (gs : List Nat) : String := ":".intercalate (gs.map groupText)

def zeroRun (gs : List Nat) : Nat := (gs.takeWhile (· == 0)).length

/-- The start and length of the first of the longest runs of zeros. -/
def longestZeroRun : List Nat → Nat × Nat
  | [] => (0, 0)
  | g :: gs =>
    let here := zeroRun (g :: gs)
    let (start, length) := longestZeroRun gs
    if length ≤ here then (0, here) else (start + 1, length)

def ipv6Text (gs : List Nat) : String :=
  match gs with
  | [0, 0, 0, 0, 0, 0xffff, x, y] => "::ffff:" ++ (⟨x / 256, x % 256, y / 256, y % 256⟩ : Ipv4).text
  | _ =>
    let (start, length) := longestZeroRun gs
    if length < 2 then groupsText gs
    else groupsText (gs.take start) ++ "::" ++ groupsText (gs.drop (start + length))

def text : SocketAddress → String
  | v4 ip port => ip.text ++ ":" ++ port.repr
  | v6 groups scope port =>
    "[" ++ ipv6Text groups ++ (if scope = 0 then "" else "%" ++ scope.repr) ++ "]:" ++ port.repr

def isIpv6 : SocketAddress → Bool
  | v4 .. => false
  | v6 .. => true

def port : SocketAddress → Nat
  | v4 _ port | v6 _ _ port => port

end SocketAddress

end Calculator
