import UBoot.Boot.PxeTokens

/-!
# Labels of PXE files

Which statements of a label are read safely. An `append` without a text is looked
at before its error is, and the `initrd=` in one is taken to have a space behind it.
The parser goes to the end of the line after a `menu` even if that was the end of
the file.
-/

namespace UBoot.Boot.Pxe

open Checked Loop

/-! ## Statements that are read safely -/

abbrev Argument (c : Cursor) (s : List UInt8) (rest : Cursor) : Prop :=
  TokenAt c rest .sliteral (.string s)

def Missing (c rest : Cursor) : Prop :=
  TokenAt c rest .sliteral .eol ∨ TokenAt c rest .sliteral .eof

structure LabelView where
  appended : Bool
  initrd : Bool
  fdt : Bool
  c : Cursor

abbrev LabelOutcome := Next LabelView (Option Cursor)

def InitrdEnds (append : List UInt8) : Prop :=
  initrdKey <:+: append → ∃ before after, append = before ++ initrdKey ++ after ∧ chSpace ∈ after

/-- A `menu` statement from behind its keyword up to the end of a line. -/
def LabelMenu (c c' : Cursor) : Prop :=
  ∃ t rest, TokenAt c rest .keyword t ∧
    if t = .keyword .label then ∃ t' rest', TokenAt rest rest' .sliteral t' ∧ LineEnd rest' c'
    else LineEnd rest c'

def LabelField (v : LabelView) (c : Cursor) (x : LabelOutcome) : Prop :=
  (∃ s rest, Argument c s rest ∧ x = .goOn { v with c := rest }) ∨
    ∃ rest, Missing c rest ∧ x = .stop none

def LabelAppend (v : LabelView) (c : Cursor) (x : LabelOutcome) : Prop :=
  (∃ s rest, Argument c s rest ∧ (v.initrd = false → InitrdEnds s) ∧
    x = .goOn { v with appended := true, initrd := v.initrd || decide (initrdKey <:+: s), c := rest }) ∨
  ∃ rest, Missing c rest ∧ (v.appended ∨ v.initrd) ∧ x = .stop none

def LabelStep (v : LabelView) (x : LabelOutcome) : Prop :=
  ∃ t rest, TokenAt v.c rest .keyword t ∧
    match t with
    | .keyword .menu => ∃ c, LabelMenu rest c ∧ x = .goOn { v with c := c }
    | .keyword .kernel | .keyword .linux | .keyword .localboot | .keyword .ipappend =>
      LabelField v rest x
    | .keyword .append => LabelAppend v rest x
    | .keyword .initrd =>
      if v.initrd then x = .goOn { v with c := rest } else LabelField { v with initrd := true } rest x
    | .keyword .fdt =>
      if v.fdt then x = .goOn { v with c := rest } else LabelField { v with fdt := true } rest x
    | .eol => x = .goOn { v with c := rest }
    | _ => x = .stop (some v.c)

def LabelReads (c : Cursor) (r : Option Cursor) : Prop :=
  (∃ rest, Missing c rest ∧ r = none) ∨
    ∃ name rest, Argument c name rest ∧ Ends LabelStep ⟨false, false, false, rest⟩ r

/-! ## Literals -/

variable {c rest : Cursor}

theorem parseSliteral_some : parseSliteral c = .ok (some s, rest) ↔ Argument c s rest := by
  simp only [parseSliteral, map_eq_ok, Prod.exists, getToken_eq_ok]
  constructor
  · rintro ⟨t, rest, h, heq⟩
    cases t <;> cases heq
    exact h
  · intro h
    exact ⟨_, _, h, rfl⟩

theorem parseSliteral_none : parseSliteral c = .ok (none, rest) ↔ Missing c rest := by
  simp only [parseSliteral, map_eq_ok, Prod.exists, getToken_eq_ok]
  constructor
  · rintro ⟨t, rest, h, heq⟩
    cases h with
    | eol hgap h =>
      cases heq
      exact .inl (.eol hgap h)
    | eof hgap h =>
      cases heq
      exact .inr (.eof hgap h)
    | literal => cases heq
  · rintro (h | h)
    · exact ⟨_, _, h, rfl⟩
    · exact ⟨_, _, h, rfl⟩

/-- `read` gives the value of the argument at `c`, or nothing if there is none. -/
def ReadsAt (c : Cursor) (read : Except Fault (Option α × Cursor)) (value : List UInt8 → α) :
    Prop :=
  ∀ P : Option α → Cursor → Prop, (∃ o rest, read = .ok (o, rest) ∧ P o rest) ↔
    (∃ s rest, Argument c s rest ∧ P (some (value s)) rest) ∨ ∃ rest, Missing c rest ∧ P none rest

theorem parseSliteral_readsAt (c : Cursor) : ReadsAt c (parseSliteral c) id := by
  intro P
  rw [Option.exists, or_comm]
  simp [parseSliteral_none, parseSliteral_some, id]

theorem parseInteger_readsAt (c : Cursor) : ReadsAt c (parseInteger c) (simpleStrtol 10) := by
  intro P
  refine Iff.trans ?_ (parseSliteral_readsAt c fun o rest => P (o.map (simpleStrtol 10)) rest)
  simpa [parseInteger, map_eq_ok] using exists_comm

theorem exists_sliteral {P : Cursor → Prop} :
    (∃ o rest, parseSliteral c = .ok (o, rest) ∧ P rest) ↔
      ∃ t rest, TokenAt c rest .sliteral t ∧ P rest := by
  simp only [parseSliteral, map_eq_ok, Prod.exists, getToken_eq_ok]
  constructor
  · rintro ⟨o, rest, ⟨t, rest', h, heq⟩, hP⟩
    cases t <;> cases heq <;> exact ⟨_, _, h, hP⟩
  · rintro ⟨t, rest, h, hP⟩
    cases t <;> exact ⟨_, _, ⟨_, _, h, rfl⟩, hP⟩

/-! ## The initrd of an append line -/

theorem strstr_eq_none : strstr pattern s = none ↔ ¬ pattern <:+: s := by
  induction s with
  | nil => simp [strstr]
  | cons b s ih =>
    rw [strstr, List.infix_cons_iff, ← List.isPrefixOf_iff_prefix]
    split
    next h => simp [h]
    next h => simp [h, ih]

theorem strstr_after (h : s = before ++ pattern ++ after) :
    ∃ r, strstr pattern s = some r ∧ after <:+ r.drop pattern.length := by
  induction s generalizing before with
  | nil =>
    simp only [List.nil_eq, List.append_eq_nil_iff] at h
    obtain ⟨⟨rfl, rfl⟩, rfl⟩ := h
    exact ⟨[], rfl, List.suffix_refl _⟩
  | cons b s ih =>
    rw [strstr]
    split
    next hstarts =>
      have hafter : after = ((b :: s).drop pattern.length).drop before.length := by
        rw [List.drop_drop, h, List.drop_left' (by simp [Nat.add_comm])]
      refine ⟨_, rfl, ?_⟩
      rw [hafter]
      exact List.drop_suffix _ _
    next hstarts =>
      cases before with
      | nil =>
        refine absurd ?_ hstarts
        rw [h, List.isPrefixOf_iff_prefix]
        exact ⟨after, by simp⟩
      | cons a before =>
        cases h
        exact ih rfl

theorem strstr_infix (h : strstr pattern s = some r) :
    ∃ before, s = before ++ pattern ++ r.drop pattern.length := by
  induction s with
  | nil =>
    rw [strstr] at h
    split at h
    next hnil =>
      cases h
      exact ⟨[], by simp [hnil]⟩
    next => cases h
  | cons b s ih =>
    rw [strstr] at h
    split at h
    next hstarts =>
      cases h
      obtain ⟨after, hafter⟩ := List.isPrefixOf_iff_prefix.mp hstarts
      exact ⟨[], by rw [← hafter, List.drop_left' rfl]; simp⟩
    next =>
      obtain ⟨before, hbefore⟩ := ih h
      exact ⟨b :: before, by rw [hbefore]; simp⟩

theorem initrdEnds_of_strstr (h : strstr initrdKey append = some r) :
    InitrdEnds append ↔ chSpace ∈ r.drop 7 := by
  have hlen : initrdKey.length = 7 := by decide
  constructor
  · intro hends
    obtain ⟨before, hbefore⟩ := strstr_infix h
    obtain ⟨before', after, happend, hspace⟩ := hends ⟨before, _, hbefore.symm⟩
    obtain ⟨r', hr', hsuffix⟩ := strstr_after happend
    rw [h] at hr'
    cases hr'
    rw [← hlen]
    exact hsuffix.mem hspace
  · intro hspace _
    obtain ⟨before, hbefore⟩ := strstr_infix h
    exact ⟨before, _, hbefore, by rwa [hlen]⟩

def Label.view (label : Label) (c : Cursor) : LabelView :=
  ⟨label.append.isSome, label.initrd.isSome, label.fdt.isSome, c⟩

abbrev LabelState.view (s : LabelState) : LabelView := s.label.view s.c

/-- Where a label has no initrd, its `append` has none in it. -/
def Label.NoInitrdLeft (label : Label) : Prop :=
  label.initrd = none → ∀ append ∈ label.append, ¬ initrdKey <:+: append

theorem appendedInitrd_view (label : Label) (h : label.append = some append) :
    ((appendedInitrd label).map fun label => label.view c) = .ok v ↔
      (label.initrd.isSome = false → InitrdEnds append) ∧
        v = ⟨true, label.initrd.isSome || decide (initrdKey <:+: append), label.fdt.isSome, c⟩ := by
  unfold appendedInitrd
  split
  next hsome => simp [Except.map, Label.view, h, hsome, eq_comm]
  next hnone =>
    simp only [h]
    cases hfound : strstr initrdKey append with
    | none =>
      have hnot := strstr_eq_none.mp hfound
      have hends : InitrdEnds append := fun hin => absurd hin hnot
      simp [Except.map, Label.view, h, hnone, hnot, hends, eq_comm]
    | some r =>
      have hin : initrdKey <:+: append := by
        by_contra hnot
        rw [strstr_eq_none.mpr hnot] at hfound
        cases hfound
      simp only [initrdEnds_of_strstr hfound]
      split
      next hspace => simp [Except.map, Label.view, hnone, hin, hspace, eq_comm]
      next hspace => simp [Except.map, hnone, hspace]

theorem appendedInitrd_again (hinv : label.NoInitrdLeft) :
    appendedInitrd label = .ok label ↔ label.append.isSome ∨ label.initrd.isSome := by
  unfold appendedInitrd
  split
  next hsome => simp [hsome]
  next hnone =>
    cases happend : label.append with
    | none => simp [hnone]
    | some append =>
      have hnot := hinv (by simpa using hnone) append happend
      simp [strstr_eq_none.mpr hnot]

theorem appendedInitrd_keeps (h : appendedInitrd label = .ok label') : label'.NoInitrdLeft := by
  unfold appendedInitrd at h
  split at h
  next hsome =>
    cases h
    intro hnone
    simp [hnone] at hsome
  next hnone =>
    split at h
    next => cases h
    next append happend =>
      split at h
      next hfound =>
        cases h
        intro _ append' happend'
        rw [happend] at happend'
        cases happend'
        exact strstr_eq_none.mp hfound
      next r hfound =>
        dsimp only at h
        split at h
        · cases h
          intro hnone
          cases hnone
        · cases h

/-! ## The statements -/

def labelResult (r : Int × Menu × Cursor) : Option Cursor := if r.1 < 0 then none else some r.2.2

variable {s : LabelState} {v : LabelView} {x : LabelOutcome}

theorem setField_view {read : Except Fault (Option α × Cursor)} {set : α → Label}
    (hread : ReadsAt c read value) (hset : ∀ a rest,
      { s with label := set a, c := rest : LabelState }.view = { v with c := rest }) :
    (setField read s set).map (Next.map LabelState.view labelResult) = .ok x ↔
      LabelField v c x := by
  simp only [setField, map_bind, bind_eq_ok, Prod.exists]
  refine (hread _).trans (or_congr ?_ ?_)
  · simp [Except.map, Next.map, hset, eq_comm]
  · simp [Except.map, Next.map, labelResult, eq_comm, einval]

theorem parseLabelMenu_eq_ok (h : parseLabelMenu s = .ok s') :
    LabelMenu s.c s'.c ∧ s'.label.view s'.c = s.label.view s'.c ∧
      (s.label.NoInitrdLeft → s'.label.NoInitrdLeft) := by
  obtain ⟨⟨t, rest⟩, htoken, h⟩ := bind_eq_ok.mp h
  have htoken := getToken_eq_ok.mp htoken
  dsimp only at h
  split at h
  next =>
    obtain ⟨c, hline, heq⟩ := bind_eq_ok.mp h
    cases heq
    exact ⟨⟨_, rest, htoken, by simpa using eolOrEof_eq_ok.mp hline⟩, rfl, id⟩
  next =>
    obtain ⟨⟨menu, rest'⟩, hmenu, h⟩ := bind_eq_ok.mp h
    obtain ⟨c, hline, heq⟩ := bind_eq_ok.mp h
    cases heq
    obtain ⟨t', rest', hliteral, hline'⟩ :=
      (exists_sliteral (P := fun rest' => LineEnd rest' c)).mp
        ⟨menu, rest', hmenu, eolOrEof_eq_ok.mp hline⟩
    exact ⟨⟨_, rest, htoken, t', rest', hliteral, hline'⟩, rfl, id⟩
  next hdefault hlabel =>
    obtain ⟨c, hline, heq⟩ := bind_eq_ok.mp h
    cases heq
    exact ⟨⟨_, rest, htoken, by rw [if_neg hlabel]; exact eolOrEof_eq_ok.mp hline⟩, rfl, id⟩

theorem parseLabelMenu_of {c' : Cursor} (h : LabelMenu s.c c') :
    ∃ s', parseLabelMenu s = .ok s' ∧ s'.c = c' := by
  obtain ⟨t, rest, htoken, h⟩ := h
  rw [parseLabelMenu, getToken_eq_ok.mpr htoken, ok_bind]
  dsimp only
  split
  next =>
    have hline := eolOrEof_eq_ok.mpr (by simpa using h)
    exact ⟨_, by rw [hline, ok_bind], rfl⟩
  next =>
    obtain ⟨o, rest', hliteral, hline⟩ := exists_sliteral.mpr h
    exact ⟨_, by rw [hliteral, ok_bind, eolOrEof_eq_ok.mpr hline, ok_bind], rfl⟩
  next hdefault hlabel =>
    rw [if_neg hlabel] at h
    exact ⟨_, by rw [eolOrEof_eq_ok.mpr h, ok_bind], rfl⟩

theorem parseLabelMenu_view :
    ((parseLabelMenu s).map Next.goOn).map (Next.map LabelState.view labelResult) = .ok x ↔
      ∃ c, LabelMenu s.c c ∧ x = .goOn { s.view with c := c } := by
  simp only [map_eq_ok]
  constructor
  · rintro ⟨_, ⟨s', hs', rfl⟩, rfl⟩
    obtain ⟨hmenu, hview, -⟩ := parseLabelMenu_eq_ok hs'
    exact ⟨s'.c, hmenu, congrArg Next.goOn hview⟩
  · rintro ⟨c', hmenu, rfl⟩
    obtain ⟨s', hs', rfl⟩ := parseLabelMenu_of hmenu
    obtain ⟨-, hview, -⟩ := parseLabelMenu_eq_ok hs'
    exact ⟨_, ⟨s', hs', rfl⟩, congrArg Next.goOn hview⟩

theorem parseAppend_view (hinv : s.label.NoInitrdLeft) :
    (parseAppend s).map (Next.map LabelState.view labelResult) = .ok x ↔
      LabelAppend s.view s.c x := by
  simp only [parseAppend, map_bind, bind_eq_ok, Prod.exists]
  constructor
  · rintro ⟨o, rest, hread, label, hlabel, h⟩
    cases o with
    | none =>
      cases h
      refine .inr ⟨rest, parseSliteral_none.mp hread, ?_, rfl⟩
      rw [Option.none_or] at hlabel
      by_contra hnone
      simp only [LabelState.view, Label.view, not_or, Bool.not_eq_true, Option.isSome_eq_false_iff,
        Option.isNone_iff_eq_none] at hnone
      simp [appendedInitrd, hnone.1, hnone.2] at hlabel
    | some append =>
      cases h
      obtain ⟨hends, hview⟩ := (appendedInitrd_view _ rfl).mp (map_eq_ok.mpr ⟨label, hlabel, rfl⟩)
      exact .inl ⟨append, rest, parseSliteral_some.mp hread, hends, congrArg Next.goOn hview⟩
  · rintro (⟨append, rest, htext, hends, rfl⟩ | ⟨rest, hmissing, hbefore, rfl⟩)
    · obtain ⟨label, hlabel, hview⟩ := map_eq_ok.mp
        ((appendedInitrd_view { s.label with append := some append } rfl).mpr ⟨hends, rfl⟩)
      exact ⟨_, rest, parseSliteral_some.mpr htext, label, hlabel,
        congrArg (fun v => Except.ok (Next.goOn v)) hview⟩
    · refine ⟨none, rest, parseSliteral_none.mpr hmissing, s.label, ?_, rfl⟩
      rw [Option.none_or]
      exact (appendedInitrd_again hinv).mpr hbefore

theorem labelStep_view (hinv : s.label.NoInitrdLeft) :
    (labelStep s).map (Next.map LabelState.view labelResult) = .ok x ↔ LabelStep s.view x := by
  simp only [labelStep, map_bind, bind_eq_ok, Prod.exists, LabelStep]
  refine exists_congr fun t => exists_congr fun rest => ?_
  rw [getToken_eq_ok]
  refine and_congr_right fun htoken => ?_
  cases t with
  | eol => simp [Except.map, Next.map, LabelState.view, Label.view, eq_comm]
  | eof => simp [Except.map, Next.map, LabelState.view, Label.view, labelResult, eq_comm]
  | string w => simp [Except.map, Next.map, LabelState.view, Label.view, labelResult, eq_comm]
  | keyword k =>
    cases k with
    | menu => exact parseLabelMenu_view
    | kernel | linux => exact setField_view (parseSliteral_readsAt rest) fun _ _ => rfl
    | append => exact parseAppend_view hinv
    | initrd =>
      cases h : s.label.initrd with
      | none =>
        simpa [LabelState.view, Label.view, h] using
          setField_view (v := { s.view with initrd := true }) (parseSliteral_readsAt rest)
            fun _ _ => rfl
      | some _ => simp [Except.map, Next.map, LabelState.view, Label.view, h, eq_comm]
    | fdt =>
      cases h : s.label.fdt with
      | none =>
        simpa [LabelState.view, Label.view, h] using
          setField_view (v := { s.view with fdt := true }) (parseSliteral_readsAt rest)
            fun _ _ => rfl
      | some _ => simp [Except.map, Next.map, LabelState.view, Label.view, h, eq_comm]
    | localboot | ipappend => exact setField_view (parseInteger_readsAt rest) fun _ _ => rfl
    | _ =>
      simp [Except.map, Next.map, LabelState.view, Label.view, labelResult, eq_comm]

/-! ## Whole labels -/

theorem setField_keeps {read : Except Fault (Option α × Cursor)} {set : α → Label}
    (h : setField read s set = .ok (.goOn s')) (hset : ∀ a, (set a).NoInitrdLeft) :
    s'.label.NoInitrdLeft := by
  obtain ⟨⟨value, rest⟩, -, h⟩ := bind_eq_ok.mp h
  cases value with
  | none => cases h
  | some a =>
    cases h
    exact hset a

theorem parseAppend_keeps (h : parseAppend s = .ok (.goOn s')) : s'.label.NoInitrdLeft := by
  obtain ⟨⟨append, rest⟩, -, h⟩ := bind_eq_ok.mp h
  obtain ⟨label, hlabel, h⟩ := bind_eq_ok.mp h
  cases append with
  | none => cases h
  | some a =>
    cases h
    exact appendedInitrd_keeps hlabel

theorem labelStep_keeps (hinv : s.label.NoInitrdLeft) (h : labelStep s = .ok (.goOn s')) :
    s'.label.NoInitrdLeft := by
  obtain ⟨⟨t, rest⟩, -, h⟩ := bind_eq_ok.mp h
  cases t with
  | eol =>
    cases h
    exact hinv
  | eof => cases h
  | string w => cases h
  | keyword k =>
    cases k with
    | menu =>
      obtain ⟨s₁, hs₁, heq⟩ := map_eq_ok.mp h
      cases heq
      exact (parseLabelMenu_eq_ok hs₁).2.2 hinv
    | kernel | linux | localboot | ipappend =>
      dsimp only at h
      exact setField_keeps h fun _ => hinv
    | append => exact parseAppend_keeps h
    | initrd =>
      dsimp only at h
      split at h
      · cases h
        exact hinv
      · refine setField_keeps h fun _ hnone => ?_
        cases hnone
    | fdt =>
      dsimp only at h
      split at h
      · cases h
        exact hinv
      · exact setField_keeps h fun _ => hinv
    | _ => cases h

theorem LabelField.length_le (h : LabelField v c (.goOn v')) : v'.c.length ≤ c.length := by
  obtain ⟨text, rest, htext, heq⟩ | ⟨rest, -, heq⟩ := h
  · cases heq
    exact htext.length_le
  · cases heq

theorem LabelMenu.length_le (h : LabelMenu c c') : c'.length ≤ c.length := by
  obtain ⟨t, rest, htoken, h⟩ := h
  have hrest := htoken.length_le
  split at h
  · obtain ⟨t', rest', hliteral, hline⟩ := h
    exact le_trans hline.length_le (le_trans hliteral.length_le hrest)
  · exact le_trans h.length_le hrest

theorem LabelStep.length_lt (h : LabelStep v (.goOn v')) : v'.c.length < v.c.length := by
  obtain ⟨t, rest, htoken, h⟩ := h
  have hlt (ht : ∀ w, t ≠ .string w) : rest.length < v.c.length := htoken.length_lt fun _ => ht
  cases t with
  | eol =>
    cases h
    exact hlt (by simp)
  | eof => cases h
  | string w => cases h
  | keyword k =>
    refine lt_of_le_of_lt ?_ (hlt (by simp))
    cases k with
    | menu =>
      obtain ⟨c, hmenu, heq⟩ := h
      cases heq
      exact hmenu.length_le
    | kernel | linux | localboot | ipappend => exact LabelField.length_le h
    | append =>
      obtain ⟨text, rest', htext, -, heq⟩ | ⟨rest', -, -, heq⟩ := h
      · cases heq
        exact htext.length_le
      · cases heq
    | initrd | fdt =>
      dsimp only at h
      split at h
      · cases h
        exact le_rfl
      · exact LabelField.length_le h
    | _ => cases h

theorem LabelStep.stop_eq (h : LabelStep v (.stop (some c'))) : c' = v.c := by
  obtain ⟨t, rest, -, h⟩ := h
  have hfield {v' : LabelView} : ¬ LabelField v' rest (.stop (some c')) := by
    rintro (⟨_, _, -, heq⟩ | ⟨_, -, heq⟩) <;> cases heq
  cases t with
  | eol => cases h
  | eof | string w =>
    cases h
    rfl
  | keyword k =>
    cases k with
    | menu =>
      obtain ⟨c, -, heq⟩ := h
      cases heq
    | kernel | linux | localboot | ipappend => exact absurd h hfield
    | append => obtain ⟨_, _, -, -, heq⟩ | ⟨_, -, -, heq⟩ := h <;> cases heq
    | initrd | fdt =>
      dsimp only at h
      split at h
      · cases h
      · exact absurd h hfield
    | _ =>
      cases h
      rfl

theorem LabelReads.length_le (h : LabelReads c (some c')) : c'.length ≤ c.length := by
  have hends {v : LabelView} {r : Option Cursor} (h : Ends LabelStep v r) (hr : r = some c') :
      c'.length ≤ v.c.length := by
    induction h with
    | stop h =>
      subst hr
      rw [h.stop_eq]
    | goOn h rest ih => exact le_trans (ih hr) (le_of_lt h.length_lt)
  obtain ⟨rest, -, hr⟩ | ⟨name, rest, hname, h⟩ := h
  · cases hr
  · exact le_trans (hends h rfl) hname.length_le

theorem parseLabel_view (cfg : Menu) :
    (parseLabel cfg c).map labelResult = .ok r ↔ LabelReads c r := by
  have hrun (name : List UInt8) (rest : Cursor) :
      (Loop.run labelStep .endless (rest.length + 1) ⟨Label.create name, cfg, rest⟩).map labelResult =
        .ok r ↔ Ends LabelStep ⟨false, false, false, rest⟩ r :=
    Loop.run_eq_ok (fun s => s.label.NoInitrdLeft) (fun v => v.c.length)
      (fun _ hs _ => labelStep_view hs) (fun _ _ hs h => labelStep_keeps hs h)
      (fun _ _ h => h.length_lt) (by simp [Label.NoInitrdLeft, Label.create]) (Nat.lt_succ_self _)
  simp only [parseLabel, map_bind, bind_eq_ok, Prod.exists]
  refine (parseSliteral_readsAt c _).trans (or_comm.trans (or_congr ?_ ?_))
  · simp [Except.map, labelResult, einval, eq_comm]
  · exact exists_congr fun name => exists_congr fun rest => and_congr_right fun _ => hrun name rest

end UBoot.Boot.Pxe
