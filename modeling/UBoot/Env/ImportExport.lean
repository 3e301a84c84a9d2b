import UBoot.Env.HashTable

/-!
# Export and import of the environment

`hexport_r` and `himport_r` of `lib/hashtable.c`, with the `qsort` of `lib/qsort.c`, without
`CONFIG_REGEX` and a caller's own export buffer; allocations succeed. An access outside a
buffer is a `Fault`. The importer writes into its copy only behind the position it reads at,
so the model keeps the bytes still to read.
-/

namespace UBoot.Env

inductive Fault
  | outOfBounds
  deriving DecidableEq

abbrev chTab : UInt8 := 9
abbrev chNewline : UInt8 := 10
abbrev chSpace : UInt8 := 32
abbrev chHash : UInt8 := 35
abbrev chDot : UInt8 := 46
abbrev chEquals : UInt8 := 61
abbrev chBackslash : UInt8 := 92

def CString.nil : CString := ⟨[], by simp⟩

def CString.cons (c : UInt8) (hc : c ≠ 0) (s : CString) : CString :=
  ⟨c :: s.val, by simpa [Ne.symm hc] using s.property⟩

/-! ## qsort and strcmp -/

/-- The difference of the first characters that differ, as a `signed char`.
For bytes that are far apart this is not an order. -/
def strcmp : List UInt8 → List UInt8 → Int
  | [], [] => 0
  | [], d :: _ => (0 - d).toInt8.toInt
  | c :: _, [] => c.toInt8.toInt
  | c :: cs, d :: ds => if c - d ≠ 0 then (c - d).toInt8.toInt else strcmp cs ds

section
variable {α : Type} (comp : α → α → Int) (wgap : Nat)

/-- The innermost loop, which sinks element `j` in steps of `wgap`. -/
def qsortSink : Nat → Nat → Array α → Array α
  | 0, _, base => base
  | fuel + 1, j, base =>
    let a := j - wgap
    match base[a]?, base[j]? with
    | some x, some y =>
      if comp x y ≤ 0 then base
      else
        let base := base.swapIfInBounds a j
        if wgap ≤ a then qsortSink fuel a base else base
    | _, _ => base

def qsortPass (base : Array α) : Array α :=
  (List.range' wgap (base.size - wgap)).foldl (fun base i => qsortSink comp wgap base.size i base)
    base

end

def qsortFirstGap (nel : Nat) : Nat → Nat → Nat
  | 0, wgap => wgap
  | fuel + 1, wgap =>
    let wgap := 3 * wgap + 1
    if wgap < (nel - 1) / 3 then qsortFirstGap nel fuel wgap else wgap

def qsortLoop (comp : α → α → Int) : Nat → Nat → Array α → Array α
  | 0, _, base => base
  | fuel + 1, wgap, base =>
    let base := qsortPass comp wgap base
    let wgap := (wgap - 1) / 3
    if wgap ≠ 0 then qsortLoop comp fuel wgap base else base

def qsort (comp : α → α → Int) (base : Array α) : Array α :=
  if 1 < base.size then
    qsortLoop comp base.size (qsortFirstGap base.size base.size 0) base
  else base

/-! ## hexport_r -/

abbrev Pair := CString × CString

def cmpkey (e1 e2 : Pair) : Int := strcmp e1.1.val e2.1.val

/-- `H_MATCH_IDENT` is bit 6, `H_MATCH_SUBSTR` bit 7, and `H_MATCH_METHOD`
bits 6 to 8. -/
def matchString (flag : Nat) (str pat : CString) : Bool :=
  match flag / 64 % 8 with
  | 1 => str = pat
  | 2 => pat.val <:+: str.val
  | _ => false

/-- `H_MATCH_KEY` is bit 4, `H_MATCH_DATA` bit 5. `argv[0]` is not a pattern. -/
def matchEntry (e : Pair) (flag : Nat) (argv : List CString) : Bool :=
  argv.tail.any fun arg =>
    (flag.testBit 4 && matchString flag e.1 arg) || (flag.testBit 5 && matchString flag e.2 arg)

def exported (flag : Nat) (argv : List CString) (e : Pair) : Bool :=
  (argv.isEmpty || matchEntry e flag argv) && !(flag.testBit 3 && e.1.val.head? == some chDot)

def Slot.pair (s : Slot) : Option Pair :=
  if 0 < s.used then s.entry.key.bind fun key => s.entry.data.map fun data => (key, data)
  else none

def Htab.pairs (htab : Htab) : List Pair :=
  (List.range' 1 htab.size).filterMap fun i => (htab.table i).pair

def needsEscape (sep c : UInt8) : Bool := c == sep || c == chBackslash

def entryRoom (sep : UInt8) (e : Pair) : Nat :=
  e.1.val.length + 2 +
    (if sep = 0 then e.2.val.length
     else (e.2.val.map fun c => if needsEscape sep c then 2 else 1).sum) + 2

def escape (sep : UInt8) (s : List UInt8) : List UInt8 :=
  s.flatMap fun c => if needsEscape sep c then [chBackslash, c] else [c]

def entryBytes (sep : UInt8) (e : Pair) : List UInt8 :=
  e.1.val ++ chEquals :: (escape sep e.2.val ++ [sep])

/-- The buffer, whose length is the value returned; `none` is the `-1` for a
`size` that is too small. -/
def hexportR (htab : Htab) (sep : UInt8) (flag size : Nat) (argv : List CString) :
    Except Fault (Option (List UInt8)) :=
  let list := htab.pairs.filter (exported flag argv)
  let totlen := (list.map (entryRoom sep)).sum
  let list := (qsort cmpkey list.toArray).toList
  if size ≠ 0 ∧ size < totlen + 1 then .ok none
  else
    let size := if size ≠ 0 then size else totlen + 1
    let written := list.flatMap (entryBytes sep) ++ [0]
    -- the rest of the buffer keeps the zeros of `calloc`
    if written.length ≤ size then .ok (some (written ++ List.replicate (size - written.length) 0))
    else .error .outOfBounds

/-! ## himport_r -/

def isblank (c : UInt8) : Bool := c == chSpace || c == chTab

def skipBlanks : List UInt8 → Except Fault (List UInt8)
  | [] => .error .outOfBounds
  | c :: dp => if isblank c then skipBlanks dp else .ok (c :: dp)

def skipComment (sep : UInt8) : List UInt8 → Except Fault (List UInt8)
  | [] => .error .outOfBounds
  | c :: dp => if c ≠ 0 ∧ c ≠ sep then skipComment sep dp else .ok dp

def parseName (sep : UInt8) : List UInt8 → Except Fault (CString × List UInt8)
  | [] => .error .outOfBounds
  | c :: dp =>
    if h : c ≠ chEquals ∧ c ≠ 0 ∧ c ≠ sep then do
      let (name, dp) ← parseName sep dp
      .ok (.cons c h.2.1 name, dp)
    else .ok (.nil, c :: dp)

/-- The test for `"name"` and `"name="`, which looks at the byte after next. -/
def isDeletion (sep : UInt8) : List UInt8 → Except Fault Bool
  | [] => .error .outOfBounds
  | [c] => if c = 0 then .ok true else .error .outOfBounds
  | c :: d :: _ => .ok (c == 0 || d == 0 || c == sep || d == sep)

def parseValue (sep : UInt8) : List UInt8 → Except Fault (CString × List UInt8)
  | [] => .error .outOfBounds
  | c :: dp =>
    if hc : c = 0 ∨ c = sep then .ok (.nil, dp)
    else if c = chBackslash then
      match dp with
      | [] => .error .outOfBounds
      | d :: dp' =>
        if hd : d ≠ 0 then do
          let (value, rest) ← parseValue sep dp'
          .ok (.cons d hd value, rest)
        else do
          let (value, rest) ← parseValue sep (d :: dp')
          .ok (.cons c (fun h => hc (.inl h)) value, rest)
    else do
      let (value, rest) ← parseValue sep dp
      .ok (.cons c (fun h => hc (.inl h)) value, rest)

/-- `vars` are the variables to import, `none` where one was dropped. -/
def dropVarFromSet (name : CString) (vars : List (Option CString)) :
    Bool × List (Option CString) :=
  if vars.isEmpty then (true, vars)
  else (vars.contains (some name), vars.map fun v => if v = some name then none else v)

structure ImportState where
  htab : Htab
  vars : List (Option CString)
  dp : List UInt8

section
variable (hooks : Hooks) (sep : UInt8) (flag : Nat)

/-- One entry of the bytes; `false` is the return at an empty key. -/
def importEntry (s : ImportState) : Except Fault (ImportState × Bool) := do
  let dp ← skipBlanks s.dp
  if dp.head? = some chHash then
    let dp ← skipComment sep dp
    .ok ({ s with dp := dp }, true)
  else
    let (name, dp) ← parseName sep dp
    if ← isDeletion sep dp then
      let dp := if dp.head? = some chEquals then dp.drop 2 else dp.drop 1
      let (listed, vars) := dropVarFromSet name s.vars
      if listed then .ok (⟨(hdeleteR hooks name flag s.htab).2.2, vars, dp⟩, true)
      else .ok (⟨s.htab, vars, dp⟩, true)
    else
      let (value, dp) ← parseValue sep dp.tail
      if name = .nil then .ok ({ s with dp := dp }, false)
      else
        let (listed, vars) := dropVarFromSet name s.vars
        if listed then
          .ok (⟨(hsearchR hooks name (some value) .enter flag s.htab).htab, vars, dp⟩, true)
        else .ok (⟨s.htab, vars, dp⟩, true)

def importLoop : Nat → ImportState → Except Fault (ImportState × Bool)
  | 0, s => .ok (s, true)
  | fuel + 1, s => do
    let (s, more) ← importEntry hooks sep flag s
    if more ∧ s.dp.headD 0 ≠ 0 then importLoop fuel s else .ok (s, more)

/-- `CONFIG_ENV_MIN_ENTRIES` and `CONFIG_ENV_MAX_ENTRIES` have their defaults. -/
def importEntries (size : Nat) : Nat := min (64 + size / 8) 512

/-- The return value and the table. `H_NOCLEAR` is bit 0. -/
def himportR (env : List UInt8) (vars : List CString) (htab : Option Htab) :
    Except Fault (Nat × Option Htab) :=
  let htab := if flag.testBit 0 then htab else none
  match htab.or (hcreateR (importEntries env.length) none) with
  | none => .ok (0, none)
  | some htab => do
    let (s, done) ← importLoop hooks sep flag (env.length + 1) ⟨htab, vars.map some, env⟩
    if done then
      let drop htab : Option CString → Htab
        | none => htab
        | some name => (hdeleteR hooks name flag htab).2.2
      .ok (1, some (s.vars.foldl drop s.htab))
    else .ok (0, some s.htab)

end

end UBoot.Env
