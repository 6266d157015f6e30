import Mathlib.Data.List.DropRight
import AdkAerospike.Data.Dict
import AdkAerospike.Data.Split

/-! What `_internal/uri.py` uses of Python: `int` of a string, and `urlsplit`, `parse_qs`
and `unquote` of `urllib.parse`. The Unicode tables and the limits of the interpreter are
parameters; ASCII is spelled out. -/

namespace AdkAerospike.Uri

open Data

structure Interpreter where
  /-- The value of a decimal digit that is not ASCII. -/
  decimal : Char → Option (Fin 10)
  /-- White space that is not ASCII. -/
  space : Char → Bool
  nfkc : Str → Str
  /-- The check of a network location that has an address in brackets. -/
  bracketed : Str → Bool
  /-- The number of digits above which `int` refuses a string; zero is no limit. -/
  maxStrDigits : ℕ
  maxStrDigits_ge : maxStrDigits = 0 ∨ 640 ≤ maxStrDigits

/-- The `ValueError`s, with what their messages quote. -/
inductive ValueError where
  | invalidLiteral (text : Str)
  | invalidIPv6
  | bracketedHost (netloc : Str)
  | invalidUnderNFKC (netloc : Str)
  | unsupportedScheme (scheme : Str)
  | missingHost (uri : Str)
  | missingNamespace (uri : Str)
  deriving DecidableEq

def ascii (c : Char) : Bool := c.toNat < 128

/-! ### Integers -/

namespace Interpreter
variable (U : Interpreter)

/-- Digits and white space of other scripts count as their ASCII counterparts. -/
def toAscii (c : Char) : Option Char :=
  if ascii c then some c
  else if U.space c then some ' '
  else (U.decimal c).map fun d => Nat.digitChar d

/-- A string of that many digits is not too long. -/
def Admits (n : ℕ) : Prop := U.maxStrDigits = 0 ∨ n ≤ U.maxStrDigits

instance (n : ℕ) : Decidable (U.Admits n) := inferInstanceAs (Decidable (_ ∨ _))

/-- No number that is written with so few digits is refused. -/
theorem admits_of_le {n : ℕ} (h : n ≤ 640) : U.Admits n := by
  have hge := U.maxStrDigits_ge
  unfold Admits
  omega

end Interpreter

def asciiSpace (c : Char) : Bool := c ∈ [' ', '\t', '\n', '\x0b', '\x0c', '\r']

def strip (s : Str) : Str := (s.dropWhile asciiSpace).rdropWhile asciiSpace

/-- Groups of digits with single underscores between them. -/
def digitGroups (U : Interpreter) (s : Str) : Option ℕ :=
  let groups := s.splitOn '_'
  if (∀ g ∈ groups, g ≠ [] ∧ Digits g) ∧ U.Admits groups.flatten.length then some (digitValue groups.flatten)
  else none

/-- `int(s)`; `none` stands for its `ValueError`. -/
def int (U : Interpreter) (s : Str) : Option ℤ :=
  match (s.mapM U.toAscii).map strip with
  | none => none
  | some ('+' :: t) => (digitGroups U t).map fun n => (n : ℤ)
  | some ('-' :: t) => (digitGroups U t).map fun n => -(n : ℤ)
  | some t => (digitGroups U t).map fun n => (n : ℤ)

/-! ### Splitting -/

structure SplitResult where
  scheme : Str
  netloc : Str
  path : Str
  query : Str
  fragment : Str
  deriving DecidableEq

/-- Control characters and blanks in front are dropped, and tabs and line breaks everywhere. -/
def clean (url : Str) : Str := (url.dropWhile fun c => c.toNat ≤ 0x20).filter (· ∉ ['\t', '\r', '\n'])

def schemeChar (c : Char) : Bool := c.isAlphanum || c ∈ ['+', '-', '.']

/-- The scheme, if what stands before the first colon can be one, and the rest. -/
def splitScheme (url : Str) : Str × Str :=
  let (name, found, rest) := partition ':' url
  if found ∧ name.head?.any Char.isAlpha ∧ name.all schemeChar then (name.map Char.toLower, rest) else ([], url)

def netlocEnd (c : Char) : Bool := c ∈ ['/', '?', '#']

def splitNetloc (url : Str) : Str × Str :=
  match url with
  | '/' :: '/' :: rest => (rest.takeWhile (!netlocEnd ·), rest.dropWhile (!netlocEnd ·))
  | _ => ([], url)

/-- The parts of a string that is cut at the first delimiters. -/
def components (url : Str) : SplitResult :=
  let (scheme, url) := splitScheme url
  let (netloc, url) := splitNetloc url
  let (url, _, fragment) := partition '#' url
  let (path, _, query) := partition '?' url
  { scheme, netloc, path, query, fragment }

/-- `_checknetloc`: compatibility characters must not hide a delimiter. -/
def netlocAllowed (U : Interpreter) (netloc : Str) : Bool :=
  let n := netloc.filter (· ∉ ['@', ':', '#', '?'])
  netloc.all ascii || U.nfkc n = n || (U.nfkc n).all (· ∉ ['/', '?', '#', '@', ':'])

def urlsplit (U : Interpreter) (url : Str) : Except ValueError SplitResult :=
  let parts := components (clean url)
  if decide ('[' ∈ parts.netloc) ≠ decide (']' ∈ parts.netloc) then .error .invalidIPv6
  else if '[' ∈ parts.netloc ∧ ¬ U.bracketed parts.netloc then .error (.bracketedHost parts.netloc)
  else if netlocAllowed U parts.netloc then .ok parts
  else .error (.invalidUnderNFKC parts.netloc)

theorem components_of_urlsplit {U : Interpreter} {url : Str} {parts : SplitResult} (h : urlsplit U url = .ok parts) :
    parts = components (clean url) := by
  simp only [urlsplit] at h
  split_ifs at h
  exact (Except.ok.inj h).symm

/-- A string without tabs and line breaks, with a network location of ASCII characters and
without brackets, is only cut. -/
theorem urlsplit_of_plain (U : Interpreter) {url : Str} (hclean : clean url = url)
    (hopen : '[' ∉ (components url).netloc) (hclose : ']' ∉ (components url).netloc)
    (hascii : (components url).netloc.all ascii = true) : urlsplit U url = .ok (components url) := by
  simp [urlsplit, hclean, hopen, hclose, netlocAllowed, hascii]

namespace SplitResult
variable (parts : SplitResult)

/-- User name and password, from what stands before the last `@`. -/
def userinfo : Option Str × Option Str :=
  let (info, found, _) := rpartition '@' parts.netloc
  if found then
    let (user, hasPassword, password) := partition ':' info
    (some user, if hasPassword then some password else none)
  else (none, none)

def username : Option Str := parts.userinfo.1

def password : Option Str := parts.userinfo.2

end SplitResult

/-! ### Queries -/

/-- A sequence of bytes that has begun and needs `need` more, the next of them between
`low` and `high`. -/
structure Pending where
  need : ℕ
  low : ℕ
  high : ℕ
  value : ℕ

def replacement : Char := '\ufffd'

/-- What a byte does that stands at the beginning of a character. -/
def lead (b : ℕ) : Str × Option Pending :=
  if b < 0x80 then ([Char.ofNat b], none)
  else if 0xC2 ≤ b ∧ b ≤ 0xDF then ([], some ⟨1, 0x80, 0xBF, b - 0xC0⟩)
  else if b = 0xE0 then ([], some ⟨2, 0xA0, 0xBF, 0⟩)
  else if b = 0xED then ([], some ⟨2, 0x80, 0x9F, 0xD⟩)
  else if 0xE1 ≤ b ∧ b ≤ 0xEF then ([], some ⟨2, 0x80, 0xBF, b - 0xE0⟩)
  else if b = 0xF0 then ([], some ⟨3, 0x90, 0xBF, 0⟩)
  else if 0xF1 ≤ b ∧ b ≤ 0xF3 then ([], some ⟨3, 0x80, 0xBF, b - 0xF0⟩)
  else if b = 0xF4 then ([], some ⟨3, 0x80, 0x8F, 4⟩)
  else ([replacement], none)

/-- A byte that does not go on with the sequence ends it and is read anew. -/
def Pending.next (p : Pending) (b : ℕ) : Str × Option Pending :=
  if p.low ≤ b ∧ b ≤ p.high then
    let value := 64 * p.value + (b - 0x80)
    if p.need = 1 then ([Char.ofNat value], none) else ([], some ⟨p.need - 1, 0x80, 0xBF, value⟩)
  else (replacement :: (lead b).1, (lead b).2)

/-- `bytes.decode("utf-8", "replace")`. -/
def decodeReplace : Option Pending → List ℕ → Str
  | none, [] => []
  | some _, [] => [replacement]
  | none, b :: bs => (lead b).1 ++ decodeReplace (lead b).2 bs
  | some p, b :: bs => (p.next b).1 ++ decodeReplace (p.next b).2 bs

def hexValue (c : Char) : Option ℕ :=
  if c.isDigit then some (c.toNat - 48)
  else if 'a' ≤ c ∧ c ≤ 'f' then some (c.toNat - 87)
  else if 'A' ≤ c ∧ c ≤ 'F' then some (c.toNat - 55)
  else none

/-- A percent sign without two digits after it stands for itself. -/
def unquoteToBytes : Str → List ℕ
  | '%' :: a :: b :: rest =>
    match hexValue a, hexValue b with
    | some x, some y => (16 * x + y) :: unquoteToBytes rest
    | _, _ => '%'.toNat :: unquoteToBytes (a :: b :: rest)
  | c :: rest => c.toNat :: unquoteToBytes rest
  | [] => []

/-- Runs of ASCII are decoded by themselves. -/
def unquote (s : Str) : Str :=
  (s.splitBy fun a b => ascii a = ascii b).flatMap fun run =>
    if run.all ascii then decodeReplace none (unquoteToBytes run) else run

def unquotePlus (s : Str) : Str := unquote (s.map fun c => if c = '+' then ' ' else c)

/-- The pairs of a query; those without a value are left out. -/
def parseQsl (query : Str) : List (Str × Str) :=
  (query.splitOn '&').filterMap fun field =>
    let (name, found, value) := partition '=' field
    if found ∧ value ≠ [] then some (unquotePlus name, unquotePlus value) else none

/-- `{k: v[0] for k, v in parse_qs(query).items()}`. -/
def firstValues (query : Str) : Dict Str := (parseQsl query).foldr (fun x d => d.insert x.1 x.2) ∅

end AdkAerospike.Uri
