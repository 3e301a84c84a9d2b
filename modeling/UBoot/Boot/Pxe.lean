import UBoot.Lib.Loop
import UBoot.Text.Strto

/-!
# The parser of PXE files

`parse_pxefile` of `common/cmd_pxe.c` with everything below it. A pointer into a file is what
it points to up to and with the place of the `NUL`; the empty list is a pointer behind it, and
to read there is a `Fault`. An included file is stored behind the file that includes it, which
can change the `NUL` of the latter. Allocations succeed, and printing is left out.
-/

namespace UBoot.Boot.Pxe

open Loop
open UBoot.Text (simpleStrtoul)

inductive Fault
  /-- A read behind the `NUL` of the file. -/
  | beyond
  | null
  | uninitialised
  /-- An allocation of another size than that of the text. -/
  | size
  | endless
  deriving DecidableEq

structure Text where
  bytes : List UInt8
  nonzero : 0 ∉ bytes

abbrev Cursor := List UInt8

def Text.stored (text : Text) : Cursor := text.bytes ++ [0]

def chNewline : UInt8 := 10
def chSpace : UInt8 := 32
def chHash : UInt8 := 35
def chMinus : UInt8 := 45

def isblank (c : UInt8) : Bool := c == chSpace || c == 9

def isspace (c : UInt8) : Bool := (9 ≤ c && c ≤ 13) || c == chSpace || c == 160

def isupper (c : UInt8) : Bool := (65 ≤ c && c ≤ 90) || (192 ≤ c && c ≤ 222 && c != 215)

def tolower (c : UInt8) : UInt8 := if isupper c then c + 32 else c

def ascii (s : String) : List UInt8 := s.toList.map fun c => UInt8.ofNat c.toNat

def einval : Int := 22
def enoent : Int := 2
def emlink : Int := 31

/-! ## Tokens -/

inductive Keyword
  | menu | title | timeout | default | prompt | label | kernel | linux | localboot | append
  | initrd | include | fdt | ontimeout | ipappend
  deriving DecidableEq

inductive Token
  | eol
  | eof
  | string (s : List UInt8)
  | keyword (k : Keyword)
  deriving DecidableEq

inductive LexState
  | keyword
  | sliteral

def keywords : List (List UInt8 × Keyword) :=
  [(ascii "menu", .menu), (ascii "title", .title), (ascii "timeout", .timeout),
    (ascii "default", .default), (ascii "prompt", .prompt), (ascii "label", .label),
    (ascii "kernel", .kernel), (ascii "linux", .linux), (ascii "localboot", .localboot),
    (ascii "append", .append), (ascii "initrd", .initrd), (ascii "include", .include),
    (ascii "fdt", .fdt), (ascii "ontimeout", .ontimeout), (ascii "ipappend", .ipappend)]

def scan (ends : UInt8 → Bool) : Cursor → Except Fault (List UInt8 × Cursor)
  | [] => .error .beyond
  | b :: c => if ends b then .ok ([], b :: c) else (scan ends c).map fun r => (b :: r.1, r.2)

def endsLine (b : UInt8) : Bool := b == 0 || b == chNewline

def eolOrEof (c : Cursor) : Except Fault Cursor := (scan endsLine c).map Prod.snd

def strlen (c : Cursor) : Except Fault Nat := (scan (· == 0) c).map fun r => r.1.length

def skipBlanks (c : Cursor) : Except Fault Cursor := (scan (fun b => !isblank b) c).map Prod.snd

def skipComment (c : Cursor) : Except Fault Cursor :=
  if c.head? = some chHash then eolOrEof c else .ok c

def endsString (delim b : UInt8) : Bool :=
  b == 0 || (delim == chSpace && isspace b) || b == delim

def getString (delim : UInt8) (lower : Bool) (c : Cursor) : Except Fault (List UInt8 × Cursor) :=
  (scan (endsString delim) c).map fun r => (if lower then r.1.map tolower else r.1, r.2)

def getKeyword (val : List UInt8) : Token :=
  match keywords.lookup val with
  | some k => .keyword k
  | none => .string val

def tokenHere (state : LexState) : Cursor → Except Fault (Token × Cursor)
  | [] => .error .beyond
  | b :: c =>
    if b = chNewline then .ok (.eol, c)
    else if b = 0 then .ok (.eof, c)
    else
      match state with
      | .sliteral => (getString chNewline false (b :: c)).map fun r => (.string r.1, r.2)
      | .keyword => (getString chSpace true (b :: c)).map fun r => (getKeyword r.1, r.2)

def getToken (state : LexState) (c : Cursor) : Except Fault (Token × Cursor) := do
  let c ← skipBlanks c
  let c ← skipComment c
  tokenHere state c

def parseSliteral (c : Cursor) : Except Fault (Option (List UInt8) × Cursor) :=
  (getToken .sliteral c).map fun r =>
    match r.1 with
    | .string s => (some s, r.2)
    | _ => (none, r.2)

def simpleStrtol (base : Nat) (s : List UInt8) : Int :=
  if s.head? = some chMinus then Int.bmod (-(simpleStrtoul base s.tail).1) (2 ^ 32)
  else Int.bmod (simpleStrtoul base s).1 (2 ^ 32)

def parseInteger (c : Cursor) : Except Fault (Option Int × Cursor) :=
  (parseSliteral c).map fun r => (r.1.map (simpleStrtol 10), r.2)

/-! ## Labels -/

structure Label where
  name : List UInt8
  menu : Option (List UInt8)
  kernel : Option (List UInt8)
  append : Option (List UInt8)
  initrd : Option (List UInt8)
  fdt : Option (List UInt8)
  ipappend : Int
  localboot : Int
  localbootVal : Int

def Label.create (name : List UInt8) : Label := ⟨name, none, none, none, none, none, 0, 0, 0⟩

structure Menu where
  title : Option (List UInt8)
  defaultLabel : Option (List UInt8)
  timeout : Int
  prompt : Int
  labels : List Label

def Menu.create : Menu := ⟨none, none, 0, 0, []⟩

structure LabelState where
  label : Label
  cfg : Menu
  c : Cursor

def strstr (pattern : List UInt8) : List UInt8 → Option (List UInt8)
  | [] => if pattern = [] then some [] else none
  | b :: s => if pattern.isPrefixOf (b :: s) then some (b :: s) else strstr pattern s

def initrdKey : List UInt8 := ascii "initrd="

/-- The part of an `append` line that is the name of an initrd. -/
def appendedInitrd (label : Label) : Except Fault Label :=
  if label.initrd.isSome then .ok label
  else
    match label.append with
    | none => .error .null
    | some append =>
      match strstr initrdKey append with
      | none => .ok label
      | some s =>
        let s := s.drop 7
        -- The size of the allocation comes from the space that `strchr` finds.
        if chSpace ∈ s then .ok { label with initrd := some (s.takeWhile (· ≠ chSpace)) }
        else .error .size

def parseLabelMenu (s : LabelState) : Except Fault LabelState := do
  let (t, c) ← getToken .keyword s.c
  match t with
  | .keyword .default =>
    let c ← eolOrEof c
    .ok { s with cfg := { s.cfg with defaultLabel := s.cfg.defaultLabel.or (some s.label.name) }, c }
  | .keyword .label => do
    let (menu, c) ← parseSliteral c
    let c ← eolOrEof c
    .ok { s with label := { s.label with menu := menu.or s.label.menu }, c }
  | _ =>
    let c ← eolOrEof c
    .ok { s with c }

abbrev LabelNext := Except Fault (Next LabelState (Int × Menu × Cursor))

def setField {α : Type} (read : Except Fault (Option α × Cursor)) (s : LabelState)
    (set : α → Label) : LabelNext := do
  let (value, c) ← read
  match value with
  | none => .ok (.stop (-einval, s.cfg, c))
  | some value => .ok (.goOn { s with label := set value, c })

def parseAppend (s : LabelState) : LabelNext := do
  let (append, c) ← parseSliteral s.c
  let label ← appendedInitrd { s.label with append := append.or s.label.append }
  match append with
  | none => .ok (.stop (-einval, s.cfg, c))
  | some _ => .ok (.goOn { s with label := label, c })

/-- One round of `parse_label`. The menu of a label that is not read to its end is not used
any more, so a label joins it when it ends. -/
def labelStep (s : LabelState) : LabelNext := do
  let (t, c) ← getToken .keyword s.c
  let label := s.label
  match t with
  | .keyword .menu => (parseLabelMenu { s with c }).map .goOn
  | .keyword .kernel | .keyword .linux =>
    setField (parseSliteral c) s fun text => { label with kernel := some text }
  | .keyword .append => parseAppend { s with c }
  | .keyword .initrd =>
    if label.initrd.isSome then .ok (.goOn { s with c })
    else setField (parseSliteral c) s fun text => { label with initrd := some text }
  | .keyword .fdt =>
    if label.fdt.isSome then .ok (.goOn { s with c })
    else setField (parseSliteral c) s fun text => { label with fdt := some text }
  | .keyword .localboot =>
    setField (parseInteger c) s fun n => { label with localboot := 1, localbootVal := n }
  | .keyword .ipappend => setField (parseInteger c) s fun n => { label with ipappend := n }
  | .eol => .ok (.goOn { s with c })
  | _ => .ok (.stop (1, { s.cfg with labels := s.cfg.labels ++ [label] }, s.c))

def parseLabel (cfg : Menu) (c : Cursor) : Except Fault (Int × Menu × Cursor) := do
  let (name, c) ← parseSliteral c
  match name with
  | none => .ok (-einval, cfg, c)
  | some name => Loop.run labelStep .endless (c.length + 1) ⟨Label.create name, cfg, c⟩

/-! ## Files -/

abbrev Answers := Nat → List UInt8 → Option Text

def overlay (offset : Nat) (new file : List UInt8) : List UInt8 :=
  file.take offset ++ new.take (file.length - offset)

structure FileState where
  file : List UInt8
  c : Cursor
  /-- The variable `label_name`, once it has a value. -/
  labelName : Option (List UInt8)
  cfg : Menu
  requests : Nat

abbrev FileNext := Except Fault (Next FileState (Int × Menu × Nat))

def FileState.fail (s : FileState) (err : Int) : FileNext := .ok (.stop (-err, s.cfg, s.requests))

section
variable (answers : Answers) (parseFile : Text → Menu → Nat → Except Fault (Int × Menu × Nat))

def handleInclude (offset : Nat) (s : FileState) : FileNext := do
  let (path, c) ← parseSliteral s.c
  match path with
  | none => s.fail einval
  | some path =>
    match answers s.requests path with
    | none => .ok (.stop (-enoent, s.cfg, s.requests + 1))
    | some text => do
      let (err, cfg, requests) ← parseFile text s.cfg (s.requests + 1)
      if err < 0 then .ok (.stop (err, cfg, requests))
      else
        let file := overlay offset text.stored s.file
        .ok (.goOn { s with file, c := file.drop (s.file.length - c.length), cfg, requests })

def toLineEnd (next : Next FileState (Int × Menu × Nat)) : FileNext :=
  match next with
  | .stop r => .ok (.stop r)
  | .goOn s => (eolOrEof s.c).map fun c => .goOn { s with c }

def setMenu {α : Type} (read : Except Fault (Option α × Cursor)) (s : FileState)
    (set : α → Menu) : FileNext := do
  let (value, c) ← read
  match value with
  | none => s.fail einval
  | some value => .ok (.goOn { s with cfg := set value, c })

def menuCommand (t : Token) (s : FileState) : FileNext :=
  match t with
  | .keyword .title => setMenu (parseSliteral s.c) s fun title => { s.cfg with title := some title }
  | .keyword .include => do
    let len ← strlen s.file
    handleInclude answers parseFile (len + 1) s
  | _ => .ok (.goOn s)

def parseMenu (s : FileState) : FileNext := do
  let (t, c) ← getToken .keyword s.c
  let next ← menuCommand answers parseFile t { s with c }
  toLineEnd next

def align4 (n : Nat) : Nat := (n + 3) / 4 * 4

def parseDefault (s : FileState) : FileNext := do
  let (name, c) ← parseSliteral s.c
  match name, s.labelName with
  | none, none => .error .uninitialised
  | none, some _ => s.fail einval
  | some name, _ =>
    .ok (.goOn { s with labelName := some name, cfg := { s.cfg with defaultLabel := some name }, c })

def fileStep (s : FileState) : FileNext := do
  let (t, c) ← getToken .keyword s.c
  match t with
  | .keyword .menu => parseMenu answers parseFile { s with cfg := { s.cfg with prompt := 1 }, c }
  | .keyword .timeout => setMenu (parseInteger c) s fun timeout => { s.cfg with timeout }
  | .keyword .label => do
    let (err, cfg, c) ← parseLabel s.cfg c
    if err < 0 then .ok (.stop (err, cfg, s.requests)) else .ok (.goOn { s with cfg, c })
  | .keyword .default | .keyword .ontimeout => parseDefault { s with c }
  | .keyword .include => do
    let len ← strlen s.file
    handleInclude answers parseFile (align4 len) { s with c }
  | .eol => .ok (.goOn { s with c })
  | .eof => .ok (.stop (1, s.cfg, s.requests))
  | _ => toLineEnd (.goOn { s with c })

end

def parsePxefileTop (answers : Answers) :
    Nat → Text → Menu → Nat → Except Fault (Int × Menu × Nat)
  | 0, _, cfg, requests => .ok (-emlink, cfg, requests)
  | levels + 1, text, cfg, requests =>
    Loop.run (fileStep answers (parsePxefileTop answers levels)) .endless (text.stored.length + 1)
      ⟨text.stored, text.stored, none, cfg, requests⟩

def maxNestLevel : Nat := 16

def parsePxefile (answers : Answers) (menucfg : Text) : Except Fault (Option Menu) :=
  (parsePxefileTop answers maxNestLevel menucfg Menu.create 0).map fun r =>
    if r.1 < 0 then none else some r.2.1

end UBoot.Boot.Pxe
