import Mathlib

/-!
# Attribute lists

`common/env_attr.c`, and the part of `common/env_flags.c` that takes the flags of a variable
from lists of entries `name[:attributes]`. A text is its bytes without the `NUL` behind them,
which can be read. A read before the list and a write behind a buffer is a `Fault`.
-/

namespace UBoot.Env.Attr

abbrev Text := List UInt8

inductive Fault
  | read
  | write
  deriving DecidableEq

abbrev chSpace : UInt8 := 32
abbrev chDelim : UInt8 := 44
abbrev chSep : UInt8 := 58

def isspace (c : UInt8) : Bool := (9 ≤ c && c ≤ 13) || c == chSpace || c == 160

def strim (s : Text) : Text := (s.dropWhile isspace).rdropWhile isspace

/-! ## env_attr_walk -/

def entries : Text → List Text
  | [] => [[]]
  | c :: list =>
    if c = chDelim then [] :: entries list
    else
      match entries list with
      | [] => [[c]]
      | entry :: rest => (c :: entry) :: rest

def parseEntry (entry : Text) : Option (Text × Option Text) :=
  let name := strim (entry.takeWhile (· ≠ chSep))
  let attributes := (entry.dropWhile (· ≠ chSep)).tail?.map strim
  if name = [] then none else some (name, attributes)

def walkEntries {σ : Type} (callback : Text → Option Text → σ → Int × σ) :
    List (Text × Option Text) → σ → Int × σ
  | [], s => (0, s)
  | (name, attributes) :: rest, s =>
    match callback name attributes s with
    | (0, s) => walkEntries callback rest s
    | r => r

def visited (list : Text) : List (Text × Option Text) := (entries list).filterMap parseEntry

def envAttrWalk {σ : Type} (attrList : Option Text)
    (callback : Text → Option Text → σ → Int × σ) (s : σ) : Int × σ :=
  match attrList with
  | none => (1, s)
  | some list => walkEntries callback (visited list) s

/-! ## env_attr_lookup -/

/-- The first place from `i` on where the text stands. -/
def strstr (list name : Text) (i : Nat) : Option Nat :=
  (List.range' i (list.length + 1 - i)).find? fun j => name.isPrefixOf (list.drop j)

def reverseLoop (list name : Text) (start : Option Nat) : Nat → Nat → Option Nat → Option Nat
  | 0, _, result => result
  | fuel + 1, searched, result =>
    match strstr list name searched with
    | none => result
    | some hit =>
      if ∃ s ∈ start, s < hit + name.length then result
      else reverseLoop list name start fuel (hit + 1) (some hit)

/-- The last place where the text stands, before `start` if there is one. -/
def reverseStrstr (list name : Text) (start : Option Nat) : Option Nat :=
  if name = [] then some 0 else reverseLoop list name start (list.length + 1) 0 none

def prevch (list : Text) : Nat → Except Fault UInt8
  | 0 => .error .read
  | i + 1 =>
    let c := list.getD i 0
    if c = chSpace then prevch list i else .ok c

def skipSpaces (s : Text) : Text := s.dropWhile (· = chSpace)

def nextch (s : Text) : UInt8 := (skipSpaces s).headD 0

def lookupLoop (list name : Text) : Nat → Option Nat → Except Fault (Option Nat)
  | 0, _ => .ok none
  | _, none => .ok none
  | fuel + 1, some entry => do
    let prev ← prevch list entry
    let next := nextch (list.drop (entry + name.length))
    if (entry = 0 ∨ prev = chDelim) ∧ (next = chSep ∨ next = chDelim ∨ next = 0) then
      .ok (some entry)
    else lookupLoop list name fuel (reverseStrstr list name (some entry))

def attributesOf (s : Text) : Text :=
  match skipSpaces s with
  | [] => []
  | c :: s =>
    if c ≠ chSep then []
    else (skipSpaces s).takeWhile fun c => c ≠ chDelim ∧ c ≠ chSpace

inductive Lookup
  | found (attributes : Text)
  | noList
  | notFound
  deriving DecidableEq

def envAttrLookup (attrList : Option Text) (name : Text) : Except Fault Lookup :=
  match attrList with
  | none => .ok .noList
  | some list => do
    match ← lookupLoop list name (list.length + 1) (reverseStrstr list name none) with
    | none => .ok .notFound
    | some entry => .ok (.found (attributesOf (list.drop (entry + name.length))))

/-! ## Flags of a variable -/

/-- The table `env_flags_vartype_rep`, `sdxbim` with the commands for networks. -/
def vartypeRep : List UInt8 := [115, 100, 120, 98, 105, 109]

def varaccessRep : List UInt8 := [97, 114, 111, 99]

/-- The table `env_flags_varaccess_mask`: deletion is 8, creation 16, overwriting
32 and overwriting of another value than the default 64. -/
def varaccessMask : List Nat := [0, 8 + 16 + 32, 8 + 32, 8 + 64]

/-- The place of a character in a table; `strchr` finds the terminator too, but no
text has one. -/
def flagIndex (rep : List UInt8) (loc : Nat) (flags : Text) : Nat :=
  match flags[loc]? with
  | none => 0
  | some c => if c ∈ rep then rep.idxOf c else 0

def envParseFlagsToBin (flags : Text) : Nat :=
  (flagIndex vartypeRep 0 flags) % 8 ||| varaccessMask.getD (flagIndex varaccessRep 1 flags) 0

def envFlagsAttrMaxLen : Nat := 2

def lookupFlags (attrList : Option Text) (name : Text) : Except Fault Lookup := do
  match ← envAttrLookup attrList name with
  | .found attributes =>
    if attributes.length ≤ envFlagsAttrMaxLen then .ok (.found attributes) else .error .write
  | r => .ok r

def envFlagsLookup (flagsList : Option Text) (static name : Text) : Except Fault Lookup := do
  match ← lookupFlags flagsList name with
  | .found attributes => .ok (.found attributes)
  | _ => lookupFlags (some static) name

def envFlagsInit (flagsList : Option Text) (static name : Text) : Except Fault Nat := do
  match ← envFlagsLookup flagsList static name with
  | .found attributes => if attributes = [] then .ok 0 else .ok (envParseFlagsToBin attributes)
  | _ => .ok 0

/-- The flags of all variables, `none` for a variable that is not there. -/
abbrev Flags := Text → Option Nat

def setFlags (name : Text) (value : Option Text) (flags : Flags) : Int × Flags :=
  (0, fun key =>
    if key = name then
      (flags key).map fun _ =>
        match value with
        | none => 0
        | some value => if value = [] then 0 else envParseFlagsToBin value
    else flags key)

def onFlags (static : Text) (value : Option Text) (flags : Flags) : Flags :=
  let flags : Flags := fun key => (flags key).map fun _ => 0
  let flags := (envAttrWalk (some static) setFlags flags).2
  (envAttrWalk value setFlags flags).2

end UBoot.Env.Attr
