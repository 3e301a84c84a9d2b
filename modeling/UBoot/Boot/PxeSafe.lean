import UBoot.Boot.PxeLabel

/-!
# Which PXE files are parsed safely

The statements of a file and of its includes. A `default` without a name uses a variable
without a value, a `menu` at the end is followed by a look at the rest of its line, and an
`include` outside a menu can be stored over the `NUL` of its file.
-/

namespace UBoot.Boot.Pxe

open Checked Loop

/-! ## Statements that are read safely -/

/-- What of a file decides about the statements that follow; `named` tells that
`label_name` has a value. -/
structure FileView where
  file : List UInt8
  c : Cursor
  named : Bool
  requests : Nat

abbrev FileResult := Bool × Nat

abbrev FileOutcome := Next FileView FileResult

def FileView.failed (v : FileView) : FileOutcome := .stop (false, v.requests)

def HasLength (file : List UInt8) (n : Nat) : Prop :=
  ∃ s rest, file = s ++ 0 :: rest ∧ 0 ∉ s ∧ s.length = n

def FileField (v : FileView) (c : Cursor) (x : FileOutcome) : Prop :=
  (∃ s rest, Argument c s rest ∧ x = .goOn { v with c := rest }) ∨
    ∃ rest, Missing c rest ∧ x = v.failed

def DefaultStep (v : FileView) (c : Cursor) (x : FileOutcome) : Prop :=
  (∃ s rest, Argument c s rest ∧ x = .goOn { v with named := true, c := rest }) ∨
    ∃ rest, Missing c rest ∧ v.named ∧ x = v.failed

def LabelsStep (v : FileView) (c : Cursor) (x : FileOutcome) : Prop :=
  ∃ r, LabelReads c r ∧
    x = match r with
      | none => v.failed
      | some rest => .goOn { v with c := rest }

def AtLineEnd (P : FileOutcome → Prop) (x : FileOutcome) : Prop :=
  (∃ r, P (.stop r) ∧ x = .stop r) ∨
    ∃ v c, P (.goOn v) ∧ LineEnd v.c c ∧ x = .goOn { v with c := c }

section
variable (answers : Answers) (Reads : Text → Nat → FileResult → Prop)

def FileView.include (v : FileView) (offset : Nat) (text : Text) (rest : Cursor)
    (requests : Nat) : FileView :=
  let file := overlay offset text.stored v.file
  { v with file := file, c := file.drop (v.file.length - rest.length), requests := requests }

def IncludeStep (offset : Nat) (v : FileView) (c : Cursor) (x : FileOutcome) : Prop :=
  (∃ rest, Missing c rest ∧ x = v.failed) ∨
    ∃ path rest, Argument c path rest ∧
      match answers v.requests path with
      | none => x = .stop (false, v.requests + 1)
      | some text => ∃ success requests, Reads text (v.requests + 1) (success, requests) ∧
          x = if success then .goOn (v.include offset text rest requests)
            else .stop (false, requests)

def MenuCommand (t : Token) (v : FileView) (c : Cursor) (x : FileOutcome) : Prop :=
  match t with
  | .keyword .title => FileField v c x
  | .keyword .include => ∃ n, HasLength v.file n ∧ IncludeStep answers Reads (n + 1) v c x
  | _ => x = .goOn { v with c := c }

/-- A `menu` statement from behind its keyword up to the end of a line. -/
def MenuStep (v : FileView) (c : Cursor) (x : FileOutcome) : Prop :=
  ∃ t rest, TokenAt c rest .keyword t ∧ AtLineEnd (MenuCommand answers Reads t v rest) x

def FileStep (v : FileView) (x : FileOutcome) : Prop :=
  ∃ t rest, TokenAt v.c rest .keyword t ∧
    match t with
    | .keyword .menu => MenuStep answers Reads v rest x
    | .keyword .timeout => FileField v rest x
    | .keyword .label => LabelsStep v rest x
    | .keyword .default | .keyword .ontimeout => DefaultStep v rest x
    | .keyword .include => ∃ n, HasLength v.file n ∧
        IncludeStep answers Reads (align4 n) v rest x
    | .eol => x = .goOn { v with c := rest }
    | .eof => x = .stop (true, v.requests)
    | _ => AtLineEnd (· = .goOn { v with c := rest }) x

end

def FileReads (answers : Answers) : Nat → Text → Nat → FileResult → Prop
  | 0, _, requests, r => r = (false, requests)
  | levels + 1, text, requests, r =>
    Ends (FileStep answers (FileReads answers levels)) ⟨text.stored, text.stored, false, requests⟩ r

def SafeFile (answers : Answers) (text : Text) : Prop :=
  ∃ r, FileReads answers maxNestLevel text 0 r

/-! ## Steps of a file -/

variable {answers : Answers} {Reads : Text → Nat → FileResult → Prop}
  {parseFile : Text → Menu → Nat → Except Fault (Int × Menu × Nat)}
  {s : FileState} {x : FileOutcome} {c rest : Cursor} {v : FileView}

def FileState.view (s : FileState) : FileView := ⟨s.file, s.c, s.labelName.isSome, s.requests⟩

def fileResult (r : Int × Menu × Nat) : FileResult := (decide (0 ≤ r.1), r.2.2)

abbrev fileNext : Next FileState (Int × Menu × Nat) → FileOutcome :=
  Next.map FileState.view fileResult

theorem toLineEnd_view (hm : ∀ x, m.map fileNext = .ok x ↔ P x) :
    (m >>= toLineEnd).map fileNext = .ok x ↔ AtLineEnd P x := by
  simp only [map_bind, bind_eq_ok]
  constructor
  · rintro ⟨next, hnext, h⟩
    have hP := (hm _).mp (map_eq_ok.mpr ⟨next, hnext, rfl⟩)
    cases next with
    | stop r =>
      cases h
      exact .inl ⟨_, hP, rfl⟩
    | goOn s' =>
      obtain ⟨next', hend, rfl⟩ := map_eq_ok.mp h
      obtain ⟨c, hline, rfl⟩ := map_eq_ok.mp hend
      exact .inr ⟨_, c, hP, eolOrEof_eq_ok.mp hline, rfl⟩
  · rintro (⟨r, hP, rfl⟩ | ⟨v, c, hP, hline, rfl⟩)
    · obtain ⟨next, hnext, heq⟩ := map_eq_ok.mp ((hm _).mpr hP)
      cases next with
      | goOn s' => cases heq
      | stop r' =>
        cases heq
        exact ⟨_, hnext, rfl⟩
    · obtain ⟨next, hnext, heq⟩ := map_eq_ok.mp ((hm _).mpr hP)
      cases next with
      | stop r' => cases heq
      | goOn s' =>
        cases heq
        refine ⟨_, hnext, ?_⟩
        exact map_eq_ok.mpr ⟨_, map_eq_ok.mpr ⟨c, eolOrEof_eq_ok.mpr hline, rfl⟩, rfl⟩

theorem toLineEnd_goOn :
    (toLineEnd (.goOn s)).map fileNext = .ok x ↔ AtLineEnd (· = .goOn s.view) x :=
  toLineEnd_view (m := .ok (.goOn s)) fun x => by simp [Except.map, Next.map, eq_comm]

theorem included_view : ((if r.1 < 0 then .ok (.stop r)
      else .ok (.goOn { s with file := file, c := c, cfg := r.2.1, requests := r.2.2 }) :
        FileNext).map fileNext) = .ok x ↔
      x = if (fileResult r).1 then .goOn ⟨file, c, s.labelName.isSome, r.2.2⟩
        else .stop (false, r.2.2) := by
  by_cases h : r.1 < 0
  · have hfail : ¬ 0 ≤ r.1 := by omega
    simp [h, hfail, fileResult, Except.map, Next.map, eq_comm]
  · have hsuccess : 0 ≤ r.1 := by omega
    simp [h, hsuccess, fileResult, Except.map, Next.map, FileState.view, eq_comm]

theorem fail_view (s : FileState) : (s.fail einval).map fileNext = .ok x ↔ x = s.view.failed := by
  simp [FileState.fail, FileView.failed, Except.map, Next.map, fileResult, FileState.view, einval,
    eq_comm]

theorem handleInclude_view
    (hReads : ∀ text cfg requests r, (parseFile text cfg requests).map fileResult = .ok r ↔
      Reads text requests r) :
    (handleInclude answers parseFile offset s).map fileNext = .ok x ↔
      IncludeStep answers Reads offset s.view s.c x := by
  simp only [handleInclude, map_bind, bind_eq_ok, Prod.exists]
  refine (parseSliteral_readsAt s.c _).trans (or_comm.trans (or_congr ?_ ?_))
  · exact exists_congr fun rest => and_congr_right fun _ => fail_view s
  refine exists_congr fun path => exists_congr fun rest => and_congr_right fun _ => ?_
  simp only [FileState.view, id]
  cases answers s.requests path with
  | none => simp [Except.map, Next.map, fileResult, enoent, eq_comm]
  | some text =>
    simp only [map_bind, bind_eq_ok]
    constructor
    · rintro ⟨r, hparse, h⟩
      have hr := (hReads text s.cfg (s.requests + 1) _).mp (map_eq_ok.mpr ⟨r, hparse, rfl⟩)
      exact ⟨_, _, hr, included_view.mp h⟩
    · rintro ⟨success, requests, hr, rfl⟩
      obtain ⟨r, hparse, hresult⟩ := map_eq_ok.mp ((hReads text s.cfg (s.requests + 1) _).mpr hr)
      cases hresult
      exact ⟨r, hparse, included_view.mpr rfl⟩

theorem setMenu_view {read : Except Fault (Option α × Cursor)} {set : α → Menu}
    (hread : ReadsAt c read value) :
    (setMenu read s set).map fileNext = .ok x ↔ FileField s.view c x := by
  simp only [setMenu, map_bind, bind_eq_ok, Prod.exists]
  refine (hread _).trans (or_congr ?_ ?_)
  · simp [Except.map, Next.map, FileState.view, eq_comm]
  · exact exists_congr fun rest => and_congr_right fun _ => fail_view s

section
variable
   (hReads : ∀ text cfg requests r, (parseFile text cfg requests).map fileResult = .ok r ↔ Reads text requests r)
include hReads

theorem menuCommand_view : (menuCommand answers parseFile t s).map fileNext = .ok x ↔
      MenuCommand answers Reads t s.view s.c x := by
  unfold menuCommand MenuCommand
  split
  next => exact setMenu_view (parseSliteral_readsAt s.c)
  next =>
    simp only [map_bind, bind_eq_ok, strlen_eq_ok]
    exact exists_congr fun n => and_congr_right fun _ => handleInclude_view hReads
  next => simp [Except.map, Next.map, FileState.view, eq_comm]

theorem parseMenu_view : (parseMenu answers parseFile s).map fileNext = .ok x ↔
      MenuStep answers Reads s.view s.c x := by
  rw [parseMenu, map_bind, bind_eq_ok, Prod.exists]
  refine exists_congr fun t => exists_congr fun rest => ?_
  rw [getToken_eq_ok]
  exact and_congr_right fun _ => toLineEnd_view fun _ => menuCommand_view hReads

end

theorem parseDefault_view : (parseDefault s).map fileNext = .ok x ↔ DefaultStep s.view s.c x := by
  simp only [parseDefault, map_bind, bind_eq_ok, Prod.exists]
  refine (parseSliteral_readsAt s.c _).trans (or_congr ?_ ?_)
  · simp [Except.map, Next.map, FileState.view, eq_comm]
  · refine exists_congr fun rest => and_congr_right fun _ => ?_
    cases hname : s.labelName with
    | none => simp [Except.map, FileState.view, hname]
    | some name => simpa [FileState.view, hname] using fail_view s

theorem labels_view :
    ((do
      let (err, cfg, c) ← parseLabel s.cfg c
      if err < 0 then .ok (.stop (err, cfg, s.requests)) else .ok (.goOn { s with cfg, c }) :
        FileNext).map fileNext) = .ok x ↔ LabelsStep s.view c x := by
  simp only [map_bind, bind_eq_ok, LabelsStep, ← parseLabel_view s.cfg, map_eq_ok]
  have hend (r : Int × Menu × Cursor) :
      (if r.1 < 0 then .ok (.stop (r.1, r.2.1, s.requests))
        else .ok (.goOn { s with cfg := r.2.1, c := r.2.2 }) : FileNext).map fileNext =
      .ok (match labelResult r with
        | none => s.view.failed
        | some rest => .goOn { s.view with c := rest }) := by
    by_cases h : r.1 < 0
    · have hfail : ¬ 0 ≤ r.1 := by omega
      simp [h, hfail, labelResult, fileResult, Except.map, Next.map, FileView.failed, FileState.view]
    · simp [h, labelResult, Except.map, Next.map, FileState.view]
  constructor
  · rintro ⟨r, hr, h⟩
    have hx := (map_eq_ok.mpr h).symm.trans (hend r)
    exact ⟨_, ⟨r, hr, rfl⟩, Except.ok.inj hx⟩
  · rintro ⟨_, ⟨r, hr, rfl⟩, rfl⟩
    exact ⟨r, hr, map_eq_ok.mp (hend r)⟩

theorem fileStep_view
    (hReads : ∀ text cfg requests r, (parseFile text cfg requests).map fileResult = .ok r ↔
      Reads text requests r) :
    (fileStep answers parseFile s).map fileNext = .ok x ↔ FileStep answers Reads s.view x := by
  simp only [fileStep, map_bind, bind_eq_ok, Prod.exists, FileStep]
  refine exists_congr fun t => exists_congr fun rest => ?_
  rw [getToken_eq_ok]
  refine and_congr_right fun htoken => ?_
  cases t with
  | eol => simp [Except.map, Next.map, FileState.view, eq_comm]
  | eof => simp [Except.map, Next.map, FileState.view, fileResult, eq_comm]
  | string w => exact toLineEnd_goOn
  | keyword k =>
    cases k with
    | menu => exact parseMenu_view hReads
    | timeout => exact setMenu_view (parseInteger_readsAt rest)
    | label => exact labels_view
    | default | ontimeout => exact parseDefault_view
    | «include» =>
      simp only [map_bind, bind_eq_ok, strlen_eq_ok]
      exact exists_congr fun n => and_congr_right fun _ => handleInclude_view hReads
    | _ => exact toLineEnd_goOn

/-! ## Whole files -/

variable {v' : FileView}

theorem overlay_length_le (offset : Nat) (new file : List UInt8) :
    (overlay offset new file).length ≤ file.length := by
  simp only [overlay, List.length_append, List.length_take]
  omega

theorem FileField.length_le (h : FileField v c (.goOn v')) : v'.c.length ≤ c.length := by
  obtain ⟨text, rest, htext, heq⟩ | ⟨rest, -, heq⟩ := h
  · cases heq
    exact htext.length_le
  · cases heq

theorem DefaultStep.length_le (h : DefaultStep v c (.goOn v')) : v'.c.length ≤ c.length := by
  obtain ⟨text, rest, htext, heq⟩ | ⟨rest, -, -, heq⟩ := h
  · cases heq
    exact htext.length_le
  · cases heq

theorem LabelsStep.length_le (h : LabelsStep v c (.goOn v')) : v'.c.length ≤ c.length := by
  obtain ⟨r, hreads, heq⟩ := h
  cases r with
  | none => cases heq
  | some rest =>
    cases heq
    exact hreads.length_le

theorem IncludeStep.length_le
    (h : IncludeStep answers Reads offset v c (.goOn v')) : v'.c.length ≤ c.length := by
  obtain ⟨rest, -, heq⟩ | ⟨path, rest, hpath, h⟩ := h
  · cases heq
  · have hrest := hpath.length_le
    split at h
    next => cases h
    next text _ =>
      obtain ⟨success, requests, -, heq⟩ := h
      cases success with
      | false => cases heq
      | true =>
        cases heq
        have hlen := overlay_length_le offset text.stored v.file
        simp only [FileView.include, List.length_drop]
        omega

theorem MenuCommand.length_le (h : MenuCommand answers Reads t v c (.goOn v')) :
    v'.c.length ≤ c.length := by
  unfold MenuCommand at h
  split at h
  next => exact FileField.length_le h
  next =>
    obtain ⟨n, -, h⟩ := h
    exact IncludeStep.length_le h
  next =>
    cases h
    exact le_rfl

theorem MenuStep.length_le (h : MenuStep answers Reads v c (.goOn v')) :
    v'.c.length ≤ c.length := by
  obtain ⟨t, rest, htoken, h⟩ := h
  obtain ⟨r, -, heq⟩ | ⟨v₁, c', hcommand, hline, heq⟩ := h
  · cases heq
  · cases heq
    exact le_trans hline.length_le (le_trans (MenuCommand.length_le hcommand) htoken.length_le)

theorem FileStep.length_lt (h : FileStep answers Reads v (.goOn v')) :
    v'.c.length < v.c.length := by
  obtain ⟨t, rest, htoken, h⟩ := h
  have hlt (ht : ∀ w, t ≠ .string w) : rest.length < v.c.length := htoken.length_lt fun _ => ht
  have hunknown (h : AtLineEnd (· = .goOn { v with c := rest }) (.goOn v')) :
      v'.c.length < v.c.length := by
    obtain ⟨r, -, heq⟩ | ⟨v₁, c', hv₁, hline, heq⟩ := h
    · cases heq
    · cases heq
      cases hv₁
      exact htoken.lineEnd_lt hline
  cases t with
  | eol =>
    cases h
    exact hlt (by simp)
  | eof => cases h
  | string w => exact hunknown h
  | keyword k =>
    have hword := hlt (by simp)
    cases k with
    | menu => exact lt_of_le_of_lt (MenuStep.length_le h) hword
    | timeout => exact lt_of_le_of_lt (FileField.length_le h) hword
    | label => exact lt_of_le_of_lt (LabelsStep.length_le h) hword
    | default | ontimeout => exact lt_of_le_of_lt (DefaultStep.length_le h) hword
    | «include» =>
      obtain ⟨n, -, h⟩ := h
      exact lt_of_le_of_lt (IncludeStep.length_le h) hword
    | _ => exact hunknown h

theorem parsePxefileTop_view (cfg : Menu) :
    (parsePxefileTop answers levels text cfg requests).map fileResult = .ok r ↔
      FileReads answers levels text requests r := by
  induction levels generalizing text cfg requests r with
  | zero => simp [parsePxefileTop, FileReads, Except.map, fileResult, emlink, eq_comm]
  | succ levels ih =>
    have hstart : (⟨text.stored, text.stored, false, requests⟩ : FileView) =
      FileState.view ⟨text.stored, text.stored, none, cfg, requests⟩ := rfl
    rw [parsePxefileTop, FileReads, hstart]
    have hstep (s : FileState) (_ : True) (x : FileOutcome) :
        (fileStep answers (parsePxefileTop answers levels) s).map
          (Next.map FileState.view fileResult) = .ok x ↔
            FileStep answers (FileReads answers levels) s.view x :=
      fileStep_view fun _ cfg _ _ => ih cfg
    exact Loop.run_eq_ok (fun _ => True) (fun v => v.c.length) hstep (fun _ _ _ _ => trivial)
      (fun _ _ h => h.length_lt) trivial (Nat.lt_succ_self _)

/-- A file and its includes are parsed safely exactly if the parser meets no statement
in them that is not: then it ends, reads nothing behind a `NUL`, uses no pointer without
a value, and allocates what it copies. -/
theorem parsePxefile_safe_iff (answers : Answers) (text : Text) :
    (∃ cfg, parsePxefile answers text = .ok cfg) ↔ SafeFile answers text := by
  simp [parsePxefile, exists_map_eq_ok, SafeFile, ← parsePxefileTop_view Menu.create]

/-- An `append` that ends with its initrd, one without a text, a default without a name, a
menu at the end, and an included file over a `NUL`. -/
theorem parsePxefile_unsafe :
    parsePxefile (fun _ _ => none) ⟨ascii "label a\nappend initrd=b", by decide +kernel⟩ =
        .error .size ∧
      parsePxefile (fun _ _ => none) ⟨ascii "label a\nappend", by decide +kernel⟩ = .error .null ∧
      parsePxefile (fun _ _ => none) ⟨ascii "default", by decide +kernel⟩ = .error .uninitialised ∧
      parsePxefile (fun _ _ => none) ⟨ascii "menu", by decide +kernel⟩ = .error .beyond ∧
      parsePxefile (fun _ _ => some ⟨ascii "x", by decide +kernel⟩)
        ⟨ascii "include abcd", by decide +kernel⟩ = .error .beyond := by
  refine ⟨?_, ?_, ?_, ?_, ?_⟩ <;> rfl

end UBoot.Boot.Pxe
