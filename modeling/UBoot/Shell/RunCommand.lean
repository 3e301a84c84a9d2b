import Mathlib

/-!
# The built-in command parser

`common/main.c` without `CONFIG_SYS_HUSH_PARSER`. What the commands do is left
open: a `World` says, for every state, what `cmd_process` does with a command and
how it ends. Texts are the bytes before the terminating NUL.
-/

namespace UBoot.Shell

def newline : UInt8 := 10
def semicolon : UInt8 := 0x3b
def backslash : UInt8 := 0x5c
def apostrophe : UInt8 := 0x27
def dollar : UInt8 := 0x24

/-- How a command ends: the result of `cmd_process`, and whether the command may be
repeated. -/
structure Outcome where
  rc : Int
  repeatable : Bool

structure World (σ : Type) where
  cbsize : Nat
  maxargs : Nat
  getenv : σ → List UInt8 → Option (List UInt8)
  cmdProcess : σ → Nat → List (List UInt8) → σ × Outcome
  clearCtrlc : σ → σ
  hadCtrlc : σ → Bool
  /-- The byte in memory before `cmdbuf`, which is read for a quote at its start. -/
  beforeCmdbuf : σ → UInt8

variable {σ : Type}

/-! ## parse_line and process_macros -/

def isblank (c : UInt8) : Bool := c == 0x20 || c == 0x09

/-- `parse_line`, with the number of arguments that may still be found. -/
def parseLine : Nat → List UInt8 → List (List UInt8)
  | 0, _ => []
  | n + 1, line =>
    match line.dropWhile isblank with
    | [] => []
    | c :: line =>
      let arg := (c :: line).takeWhile (!isblank ·)
      match (c :: line).dropWhile (!isblank ·) with
      | [] => [arg]
      | _ :: rest => arg :: parseLine n rest

inductive Waiting
  | dollar | bracket | closing | quote
  deriving DecidableEq

structure Macros where
  waiting : Waiting
  prev : UInt8
  /-- The text from `varname_start` on. -/
  varname : List UInt8
  output : List UInt8
  outputcnt : Nat

def Macros.emit (m : Macros) (c : UInt8) : Macros :=
  { m with output := m.output ++ [c], outputcnt := m.outputcnt - 1 }

def Macros.emitAll (m : Macros) (text : List UInt8) : Macros :=
  { m with
    output := m.output ++ text.take m.outputcnt
    outputcnt := m.outputcnt - text.length }

def Macros.step (getenv : List UInt8 → Option (List UInt8)) (m : Macros) (c : UInt8) : Macros :=
  let m' :=
    match m.waiting with
    | .dollar =>
      if c = apostrophe ∧ m.prev ≠ backslash then { m with waiting := .quote }
      else if c = Shell.dollar ∧ m.prev ≠ backslash then { m with waiting := .bracket }
      else m.emit c
    | .bracket =>
      if c = 0x28 ∨ c = 0x7b then { m with waiting := .closing, varname := [] }
      else { m with waiting := .dollar }.emitAll [Shell.dollar, c]
    | .closing =>
      if c = 0x29 ∨ c = 0x7d then
        { m with waiting := .dollar }.emitAll ((getenv m.varname).getD [])
      else { m with varname := m.varname ++ [c] }
    | .quote =>
      if c = apostrophe ∧ m.prev ≠ backslash then { m with waiting := .dollar } else m.emit c
  { m' with prev := c }

def Macros.loop (getenv : List UInt8 → Option (List UInt8)) : Macros → List UInt8 → Macros
  | m, [] => m
  | m, c :: input =>
    if m.outputcnt = 0 then m
    else if m.waiting ≠ .quote ∧ c = backslash ∧ m.prev ≠ backslash then
      -- remove one level of escape characters
      match input with
      | [] => m
      | d :: input =>
        Macros.loop getenv
          (Macros.step getenv { m with prev := c, varname := m.varname ++ [c] } d) input
    else Macros.loop getenv (Macros.step getenv m c) input

def processMacros (cbsize : Nat) (getenv : List UInt8 → Option (List UInt8)) (input : List UInt8) :
    List UInt8 :=
  let m := Macros.loop getenv ⟨.dollar, 0, [], [], cbsize⟩ input
  if m.outputcnt ≠ 0 then m.output else m.output.dropLast

/-! ## builtin_run_command -/

/-- The tokens between separators. The first byte of a token is no separator, and
the byte before a token but the first is the NUL in place of a separator. -/
def tokens (start : Bool) (prev : UInt8) (inquotes : Bool) : List UInt8 → List (List UInt8)
  | [] => [[]]
  | c :: cs =>
    let inquotes := if c = apostrophe ∧ prev ≠ backslash then !inquotes else inquotes
    if !inquotes ∧ c = semicolon ∧ !start ∧ prev ≠ backslash then
      [] :: (if cs = [] then [] else tokens true 0 false cs)
    else
      match tokens false c inquotes cs with
      | [] => [[c]]
      | token :: rest => (c :: token) :: rest

def World.argv (W : World σ) (s : σ) (token : List UInt8) : List (List UInt8) :=
  parseLine W.maxargs (processMacros W.cbsize (W.getenv s) token)

def World.runTokens (W : World σ) (flag : Nat) (s : σ) (failed repeatable : Bool) :
    List (List UInt8) → σ × Int
  | [] => (s, if failed then -1 else if repeatable then 1 else 0)
  | token :: rest =>
    match W.argv s token with
    | [] => W.runTokens flag s true repeatable rest
    | argv =>
      let (s, outcome) := W.cmdProcess s flag argv
      if W.hadCtrlc s then (s, -1)
      else W.runTokens flag s (failed || outcome.rc != 0) (repeatable && outcome.repeatable) rest

def World.builtinRunCommand (W : World σ) (s : σ) (cmd : List UInt8) (flag : Nat) : σ × Int :=
  let s := W.clearCtrlc s
  if cmd = [] then (s, -1)
  else if W.cbsize ≤ cmd.length then (s, -1)
  else W.runTokens flag s false true (tokens true (W.beforeCmdbuf s) false cmd)

/-! ## run_command_list -/

/-- The loop of `builtin_run_command_list`: `line` is the text since the last
newline. -/
def World.runLines (W : World σ) (s : σ) (line : List UInt8) : List UInt8 → σ × Int
  | [] =>
    if line ≠ [] then
      let (s, rc) := W.builtinRunCommand s line 0
      (s, if 0 ≤ rc then 1 else 0)
    else (s, 0)
  | c :: next =>
    if c = newline then
      if line ≠ [] then
        let (s, rc) := W.builtinRunCommand s line 0
        if rc < 0 then (s, 1) else W.runLines s [] next
      else W.runLines s [] next
    else W.runLines s (line ++ [c]) next

def World.builtinRunCommandList (W : World σ) (s : σ) (cmd : List UInt8) : σ × Int :=
  W.runLines s [] cmd

def commandText (cmd : List UInt8) (len : Option Nat) : List UInt8 :=
  match len with
  | none => cmd.takeWhile (· ≠ 0)
  | some len => (cmd.take len).takeWhile (· ≠ 0)

def needBuff (cmd : List UInt8) (len : Option Nat) : Bool :=
  match len with
  | none => (cmd.takeWhile (· ≠ 0)).contains newline
  | some _ => true

/-- `run_command_list`; `malloc` says whether memory for the copy is found. -/
def World.runCommandList (W : World σ) (s : σ) (cmd : List UInt8) (len : Option Nat)
    (malloc : Bool) : σ × Int :=
  if needBuff cmd len ∧ !malloc then (s, 1) else W.builtinRunCommandList s (commandText cmd len)

end UBoot.Shell
