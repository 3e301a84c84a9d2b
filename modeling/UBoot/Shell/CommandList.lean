import UBoot.Shell.RunCommand

/-!
# Lists of commands

What a list of commands is for: its lines are executed in order, up to the first
that fails, and a line fails if one of its commands does. `run_command_list`
executes the lines so, but what it returns is the opposite of what happened if the
last line executed has no newline behind it.
-/

namespace UBoot.Shell

variable {σ : Type}

/-! ## What happens to a line -/

/-- The commands of a line are executed in order, until the user stops them. They
succeed if each of them is there and succeeds. -/
def World.execTokens (W : World σ) (s : σ) : List (List UInt8) → σ × Bool
  | [] => (s, true)
  | token :: rest =>
    match W.argv s token with
    | [] => ((W.execTokens s rest).1, false)
    | argv =>
      let (s, outcome) := W.cmdProcess s 0 argv
      if W.hadCtrlc s then (s, false)
      else ((W.execTokens s rest).1, outcome.rc == 0 && (W.execTokens s rest).2)

def World.execLine (W : World σ) (s : σ) (line : List UInt8) : σ × Bool :=
  let s := W.clearCtrlc s
  if W.cbsize ≤ line.length then (s, false)
  else W.execTokens s (tokens true (W.beforeCmdbuf s) false line)

def World.execLines (W : World σ) (s : σ) : List (List UInt8) → σ × Bool
  | [] => (s, true)
  | line :: lines =>
    let (s, ok) := W.execLine s line
    if ok then W.execLines s lines else (s, false)

variable (W : World σ) (s : σ)

theorem World.runTokens_spec (failed repeatable : Bool) (ts : List (List UInt8)) :
    (W.runTokens 0 s failed repeatable ts).1 = (W.execTokens s ts).1 ∧
      ((W.runTokens 0 s failed repeatable ts).2 < 0 ↔
        failed = true ∨ (W.execTokens s ts).2 = false) := by
  induction ts generalizing s failed repeatable with
  | nil =>
    cases failed <;> cases repeatable <;> simp [World.runTokens, World.execTokens]
  | cons token rest ih =>
    cases hargv : W.argv s token with
    | nil => simp [World.runTokens, World.execTokens, hargv, ih]
    | cons name args =>
      simp only [World.runTokens, World.execTokens, hargv]
      split
      case isTrue => simp
      case isFalse =>
        rw [(ih _ _ _).1, (ih _ _ _).2]
        simp only [Bool.or_eq_true, bne_iff_ne, Bool.and_eq_false_iff, beq_eq_false_iff_ne, or_assoc,
          and_self]

theorem World.builtinRunCommand_spec (hline : line ≠ []) :
    (W.builtinRunCommand s line 0).1 = (W.execLine s line).1 ∧
      ((W.builtinRunCommand s line 0).2 < 0 ↔ (W.execLine s line).2 = false) := by
  unfold World.builtinRunCommand World.execLine
  simp only [if_neg hline]
  split
  case isTrue => simp
  case isFalse => simpa using W.runTokens_spec (W.clearCtrlc s) false true _

/-! ## Lines of a text -/

def endedLines (line : List UInt8) : List UInt8 → List (List UInt8)
  | [] => []
  | c :: text =>
    if c = newline then
      if line ≠ [] then line :: endedLines [] text else endedLines [] text
    else endedLines (line ++ [c]) text

def lastLine (line : List UInt8) : List UInt8 → List UInt8
  | [] => line
  | c :: text => if c = newline then lastLine [] text else lastLine (line ++ [c]) text

def textLines (text : List UInt8) : List (List UInt8) :=
  (text.splitOn newline).filter (· ≠ [])

theorem modifyHead_nil (ls : List (List UInt8)) : ls.modifyHead ([] ++ ·) = ls := by
  cases ls <;> rfl

theorem filter_splitOn (line text : List UInt8) :
    ((text.splitOn newline).modifyHead (line ++ ·)).filter (· ≠ []) =
      endedLines line text ++ if lastLine line text = [] then [] else [lastLine line text] := by
  induction text generalizing line with
  | nil => by_cases h : line = [] <;> simp [endedLines, lastLine, h]
  | cons c text ih =>
    rw [List.splitOn, List.splitOnP_cons_eq_if_modifyHead]
    simp only [endedLines, lastLine]
    by_cases hc : c = newline
    · have hrest := ih []
      rw [modifyHead_nil, List.splitOn] at hrest
      simp only [hc, beq_self_eq_true, if_true, List.modifyHead_cons, List.append_nil]
      by_cases hline : line = []
      · simpa [hline] using hrest
      · simpa [hline] using hrest
    · have hrest := ih (line ++ [c])
      simp only [hc, beq_iff_eq, if_false, List.modifyHead_modifyHead]
      rw [← hrest, List.splitOn]
      congr 2
      funext x
      simp

theorem textLines_eq (text : List UInt8) :
    textLines text =
      endedLines [] text ++ if lastLine [] text = [] then [] else [lastLine [] text] := by
  rw [textLines, ← filter_splitOn, modifyHead_nil]

/-! ## run_command_list -/

theorem World.execLines_append (ls ls' : List (List UInt8)) :
    W.execLines s (ls ++ ls') =
      if (W.execLines s ls).2 then W.execLines (W.execLines s ls).1 ls' else W.execLines s ls := by
  induction ls generalizing s with
  | nil => rfl
  | cons line ls ih =>
    simp only [List.cons_append, World.execLines]
    split
    case isTrue => exact ih _
    case isFalse => rfl

theorem World.runLines_spec (line text : List UInt8) :
    W.runLines s line text =
      if (W.execLines s (endedLines line text)).2 then
        if lastLine line text = [] then ((W.execLines s (endedLines line text)).1, 0)
        else
          ((W.execLine (W.execLines s (endedLines line text)).1 (lastLine line text)).1,
            if (W.execLine (W.execLines s (endedLines line text)).1 (lastLine line text)).2 then 1
            else 0)
      else ((W.execLines s (endedLines line text)).1, 1) := by
  induction text generalizing s line with
  | nil =>
    simp only [World.runLines, endedLines, lastLine, World.execLines, if_true]
    by_cases h : line = []
    · simp [h]
    · obtain ⟨hstate, hneg⟩ := W.builtinRunCommand_spec s h
      rw [if_pos h, if_neg h, ← hstate]
      simp [← Int.not_lt, hneg]
  | cons c text ih =>
    simp only [World.runLines, endedLines, lastLine]
    split
    case isTrue =>
      split
      case isTrue h =>
        obtain ⟨hstate, hneg⟩ := W.builtinRunCommand_spec s h
        simp only [World.execLines, hneg, hstate]
        by_cases hok : (W.execLine s line).2 = true
        · simpa [hok] using ih _ _
        · rw [Bool.not_eq_true] at hok
          simp [hok]
      case isFalse => exact ih _ _
    case isFalse => exact ih _ _

/-- The lines have been executed in order up to the first that fails, and the value
returned is 0 exactly when all of them succeeded. -/
def World.Reports (W : World σ) (s : σ) (text : List UInt8) (r : σ × Int) : Prop :=
  r.1 = (W.execLines s (textLines text)).1 ∧
    (r.2 = 0 ↔ (W.execLines s (textLines text)).2 = true)

/-- With memory for the copy, what happened is reported if and only if the last line
executed has a newline behind it. -/
theorem runCommandList_reports_iff (W : World σ) (s : σ) (cmd : List UInt8) (len : Option Nat)
    (malloc : Bool) (hmalloc : needBuff cmd len = true → malloc = true) :
    W.Reports s (commandText cmd len) (W.runCommandList s cmd len malloc) ↔
      lastLine [] (commandText cmd len) = [] ∨
        (W.execLines s (endedLines [] (commandText cmd len))).2 = false := by
  have hbuff : ¬ (needBuff cmd len = true ∧ (!malloc) = true) := by
    rintro ⟨hneed, hnot⟩
    simp [hmalloc hneed] at hnot
  unfold World.Reports World.runCommandList World.builtinRunCommandList
  rw [textLines_eq, W.execLines_append, W.runLines_spec, if_neg hbuff]
  by_cases hended : (W.execLines s (endedLines [] (commandText cmd len))).2 = true
  · simp only [if_pos hended]
    by_cases hlast : lastLine [] (commandText cmd len) = []
    · simp [hlast, World.execLines]
    · simp only [hlast, hended, Bool.true_eq_false, or_self, iff_false]
      rintro ⟨-, hreport⟩
      cases hok : (W.execLine (W.execLines s (endedLines [] (commandText cmd len))).1
        (lastLine [] (commandText cmd len))).2 with
      | true => simp [World.execLines, hok] at hreport
      | false => simp [World.execLines, hok] at hreport
  · rw [Bool.not_eq_true] at hended
    simp [hended]

def obedient : World Unit where
  cbsize := 256
  maxargs := 16
  getenv _ _ := none
  cmdProcess _ _ _ := ((), ⟨0, true⟩)
  clearCtrlc s := s
  hadCtrlc _ := false
  beforeCmdbuf _ := 0

/-- The text is `echo`, with a newline behind it. -/
theorem runCommandList_reports_echo :
    obedient.Reports () [0x65, 0x63, 0x68, 0x6f, 10]
      (obedient.runCommandList () [0x65, 0x63, 0x68, 0x6f, 10, 0] none true) :=
  (runCommandList_reports_iff obedient () [0x65, 0x63, 0x68, 0x6f, 10, 0] none true
    fun _ => rfl).mpr (.inl (by decide))

/-- Without the newline the command succeeds as well, and 1 is returned. -/
theorem runCommandList_last_line_inverted :
    (obedient.execLines () (textLines [0x65, 0x63, 0x68, 0x6f])).2 = true ∧
      (obedient.runCommandList () [0x65, 0x63, 0x68, 0x6f, 0] none true).2 = 1 := by
  decide +kernel

end UBoot.Shell
