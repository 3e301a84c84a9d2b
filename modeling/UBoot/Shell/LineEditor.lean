import UBoot.Lib.ByteMemory
import UBoot.Lib.Loop
import UBoot.Shell.History

/-!
# The line editor

`cread_line` of `common/main.c`, without what it prints and without
`CONFIG_AUTO_COMPLETE`. The caller's buffer has its own size, and every byte written is
checked against it; `len` is the number of characters the editor takes.
-/

namespace UBoot.Shell.LineEditor

open ByteMemory Checked History

inductive Fault where
  | buffer
  deriving DecidableEq

/-- The variables of `cread_line`; `esc` is `esc_save` up to `esc_len`. -/
structure Edit where
  num : Nat
  eolNum : Nat
  insert : Bool
  esc : List UInt8
  buf : Memory
  hist : Hist

/-- How `cread_line` returns: with the length of the line, or after a break. -/
inductive Outcome where
  | line (len : Nat) (buf : Memory) (hist : Hist)
  | broken (buf : Memory) (hist : Hist)

/-! ## The buffer -/

def putByte (size : Nat) (buf : Memory) (i : Nat) (c : UInt8) : Except Fault Memory :=
  if i < size then .ok (Function.update buf i c) else .error .buffer

def memmove (size dest src n : Nat) (buf : Memory) : Except Fault Memory :=
  if dest + n ≤ size ∧ src + n ≤ size then .ok (moved dest src n buf) else .error .buffer

def memmoveIf (p : Prop) [Decidable p] (size dest src n : Nat) (buf : Memory) : Except Fault Memory :=
  if p then memmove size dest src n buf else .ok buf

def strcpy (size : Nat) (line : Line) (buf : Memory) : Except Fault Memory :=
  if line.length < size then .ok (storeBytes 0 (line ++ [0]) buf) else .error .buffer

/-- The text before the first NUL of the first `n` bytes. -/
def textBefore (buf : Memory) (n : Nat) : Line := ((List.range n).map buf).takeWhile (· != 0)

variable (len size : Nat)

/-- The second half of `cread_add_char`, where there is room. -/
def creadPutChar (ichar : UInt8) (insert : Bool) (e : Edit) : Except Fault Edit :=
  if insert then do
    let wlen := e.eolNum - e.num
    let buf ← memmoveIf (1 < wlen) size (e.num + 1) e.num (wlen - 1) e.buf
    let buf ← putByte size buf e.num ichar
    .ok { e with num := e.num + 1, buf := buf }
  else do
    let buf ← putByte size e.buf e.num ichar
    .ok { e with num := e.num + 1, buf := buf }

def creadAddChar (ichar : UInt8) (insert : Bool) (e : Edit) : Except Fault Edit :=
  if insert ∨ e.num = e.eolNum then
    if len - 1 < e.eolNum then .ok e
    else creadPutChar size ichar insert { e with eolNum := e.eolNum + 1 }
  else creadPutChar size ichar insert e

def creadAddStr : List UInt8 → Edit → Except Fault Edit
  | [], e => .ok e
  | c :: str, e => do creadAddStr str (← creadAddChar len size c e.insert e)

/-- `cread_add_str` with the buffer itself for the string: a byte is read when its turn comes. -/
def creadAddBuf : Nat → Nat → Edit → Except Fault Edit
  | 0, _, e => .ok e
  | n + 1, i, e => do creadAddBuf n (i + 1) (← creadAddChar len size (e.buf i) true e)

/-! ## Keys -/

inductive Action where
  | escape | home | ctrlC | right | left | delete | eraseToEol | refreshToEol | toggle | kill
  | backspace | prev | next | other
  deriving DecidableEq

/-- `CTL_CH(c)` is the place of a letter in the alphabet. -/
def action (ichar : UInt8) : Action :=
  if ichar = 0x1b then .escape
  else if ichar = 1 then .home
  else if ichar = 3 then .ctrlC
  else if ichar = 6 then .right
  else if ichar = 2 then .left
  else if ichar = 4 then .delete
  else if ichar = 11 then .eraseToEol
  else if ichar = 5 then .refreshToEol
  else if ichar = 15 then .toggle
  else if ichar = 24 ∨ ichar = 21 then .kill
  else if ichar = 255 ∨ ichar = 127 ∨ ichar = 8 then .backspace
  else if ichar = 16 then .prev
  else if ichar = 14 then .next
  else .other

def arrow (ichar : UInt8) : Option UInt8 :=
  if ichar = 68 then some 2
  else if ichar = 67 then some 6
  else if ichar = 72 then some 1
  else if ichar = 65 then some 16
  else if ichar = 66 then some 14
  else none

def putHline (e : Edit) : Hist × Option Line → Except Fault Edit
  | (hist, none) => .ok { e with hist := hist, esc := [] }
  | (hist, some hline) => do
    let buf ← strcpy size hline e.buf
    .ok { e with num := hline.length, eolNum := hline.length, esc := [], buf := buf, hist := hist }

def switch (e : Edit) (ichar : UInt8) : Except Fault (Loop.Next Edit Outcome) :=
  match action ichar with
  | .escape => .ok (.goOn { e with esc := if e.esc = [] then [ichar] else [] })
  | .home => .ok (.goOn { e with num := 0 })
  | .ctrlC => do .ok (.stop (.broken (← putByte size e.buf 0 0) e.hist))
  | .right => .ok (.goOn { e with num := if e.num < e.eolNum then e.num + 1 else e.num })
  | .left => .ok (.goOn { e with num := e.num - 1 })
  | .delete =>
    if e.num < e.eolNum then do
      let wlen := e.eolNum - e.num - 1
      let buf ← memmoveIf (wlen ≠ 0) size e.num (e.num + 1) wlen e.buf
      .ok (.goOn { e with eolNum := e.eolNum - 1, buf := buf })
    else .ok (.goOn e)
  | .eraseToEol => .ok (.goOn { e with eolNum := if e.num < e.eolNum then e.num else e.eolNum })
  | .refreshToEol => .ok (.goOn { e with num := if e.num < e.eolNum then e.eolNum else e.num })
  | .toggle => .ok (.goOn { e with insert := !e.insert })
  | .kill => .ok (.goOn { e with num := 0, eolNum := 0 })
  | .backspace =>
    if e.num ≠ 0 then do
      let wlen := e.eolNum - e.num
      let buf ← memmove size (e.num - 1) e.num wlen e.buf
      .ok (.goOn { e with num := e.num - 1, eolNum := e.eolNum - 1, buf := buf })
    else .ok (.goOn e)
  | .prev => do .ok (.goOn (← putHline size e (histPrev e.hist)))
  | .next => do .ok (.goOn (← putHline size e (histNext e.hist)))
  | .other => do .ok (.goOn (← creadAddChar len size ichar e.insert e))

def finish (e : Edit) : Except Fault Outcome := do
  let buf ← putByte size e.buf e.eolNum 0
  .ok (.line e.eolNum buf (enterLine e.hist (textBefore buf e.eolNum)))

def creadKey (e : Edit) (ichar : UInt8) : Except Fault (Loop.Next Edit Outcome) :=
  if ichar = 10 ∨ ichar = 13 then do .ok (.stop (← finish size e))
  else
    match e.esc with
    | [] => switch len size e ichar
    | [c] =>
      if ichar = 91 then .ok (.goOn { e with esc := [c, ichar] })
      else do .ok (.goOn { (← creadAddStr len size [c] e) with esc := [] })
    | esc =>
      match arrow ichar with
      | some code => switch len size { e with esc := [] } code
      | none => do .ok (.goOn { (← creadAddStr len size (esc ++ [ichar]) e) with esc := [] })

def goOnWith (next : Edit → Except Fault (Loop.Next Edit Outcome)) :
    Loop.Next Edit Outcome → Except Fault (Loop.Next Edit Outcome)
  | .goOn e => next e
  | .stop outcome => .ok (.stop outcome)

def creadKeys : Edit → List UInt8 → Except Fault (Loop.Next Edit Outcome)
  | e, [] => .ok (.goOn e)
  | e, ichar :: input => creadKey len size e ichar >>= goOnWith fun e => creadKeys e input

/-- `cread_line` with a text of `initLen` characters in the buffer. -/
def creadLine (initLen : Nat) (buf : Memory) (hist : Hist) (input : List UInt8) :
    Except Fault (Loop.Next Edit Outcome) := do
  let e ← creadAddBuf len size initLen 0 ⟨0, 0, true, [], buf, hist⟩
  creadKeys len size e input

/-! ## The abstract editor -/

structure Editor where
  text : Line
  cursor : Nat
  insert : Bool
  hist : Hist

inductive Key where
  | char (c : UInt8)
  | left | right | home | toEnd | delete | backspace | killToEnd | killLine | toggleInsert
  | prev | next

def Editor.show (a : Editor) : Hist × Option Line → Editor
  | (hist, none) => { a with hist := hist }
  | (hist, some line) => { a with text := line, cursor := line.length, hist := hist }

def Editor.press (capacity : Nat) (a : Editor) : Key → Editor
  | .char c =>
    if a.insert ∨ a.cursor = a.text.length then
      if a.text.length < capacity then
        { a with text := a.text.insertIdx a.cursor c, cursor := a.cursor + 1 }
      else a
    else { a with text := a.text.set a.cursor c, cursor := a.cursor + 1 }
  | .left => { a with cursor := a.cursor - 1 }
  | .right => { a with cursor := min (a.cursor + 1) a.text.length }
  | .home => { a with cursor := 0 }
  | .toEnd => { a with cursor := a.text.length }
  | .delete => { a with text := a.text.eraseIdx a.cursor }
  | .backspace =>
    if a.cursor = 0 then a
    else { a with text := a.text.eraseIdx (a.cursor - 1), cursor := a.cursor - 1 }
  | .killToEnd => { a with text := a.text.take a.cursor }
  | .killLine => { a with text := [], cursor := 0 }
  | .toggleInsert => { a with insert := !a.insert }
  | .prev => a.show (histPrev a.hist)
  | .next => a.show (histNext a.hist)

def Key.action : Key → Action
  | .char _ => .other
  | .left => .left
  | .right => .right
  | .home => .home
  | .toEnd => .refreshToEol
  | .delete => .delete
  | .backspace => .backspace
  | .killToEnd => .eraseToEol
  | .killLine => .kill
  | .toggleInsert => .toggle
  | .prev => .prev
  | .next => .next

inductive Sends : Key → List UInt8 → Prop
  | char {c : UInt8} (h : action c = .other) (hc : ¬ (c = 0 ∨ c = 9 ∨ c = 10 ∨ c = 13)) :
      Sends (.char c) [c]
  | control {key : Key} {c : UInt8} (hkey : ∀ c, key ≠ .char c) (h : action c = key.action) :
      Sends key [c]
  | arrow {key : Key} {c code : UInt8} (hc : arrow c = some code) (h : action code = key.action) :
      Sends key [0x1b, 91, c]

end UBoot.Shell.LineEditor
