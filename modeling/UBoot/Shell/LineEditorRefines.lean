import UBoot.Shell.LineEditor

/-!
# The line editor and its buffer

The editor takes as many characters as the caller says, and puts the NUL behind them.
A buffer of just that many bytes, as `do_env_edit` has it, is one too small for a full
line; with one byte more the editor never leaves it, and holds the text of the abstract
editor at every key.
-/

namespace UBoot.Shell.LineEditor

open ByteMemory Checked History Function
open List hiding keys

/-! ## Texts in the buffer -/

def Holds (buf : Memory) (text : Line) : Prop :=
  ∀ (i : Nat) (h : i < text.length), buf i = text[i]

variable {buf : Memory} {text : Line} {k : Nat}

section
variable (h : Holds buf text)
include h

theorem Holds.insertIdx (hk : k ≤ text.length) (c : UInt8) :
    Holds (Function.update (moved (k + 1) k (text.length - k) buf) k c) (text.insertIdx k c) := by
  intro i hi
  rw [length_insertIdx, if_pos hk] at hi
  rw [getElem_insertIdx]
  rcases Nat.lt_trichotomy i k with hlt | rfl | hgt
  · rw [dif_pos hlt, update_of_ne (by omega), moved, if_neg (by omega), h i (by omega)]
  · rw [dif_neg (by omega), dif_pos rfl, update_self]
  · rw [dif_neg (by omega), dif_neg (by omega), update_of_ne (by omega), moved,
      if_pos (by omega), show k + (i - (k + 1)) = i - 1 by omega, h (i - 1) (by omega)]

theorem Holds.set (c : UInt8) : Holds (Function.update buf k c) (text.set k c) := by
  intro i hi
  rw [length_set] at hi
  rw [getElem_set]
  split
  next heq => rw [heq, update_self]
  next hne => rw [update_of_ne (Ne.symm hne), h i hi]

theorem Holds.eraseIdx (hk : k < text.length) :
    Holds (moved k (k + 1) (text.length - k - 1) buf) (text.eraseIdx k) := by
  intro i hi
  rw [length_eraseIdx, if_pos hk] at hi
  rw [getElem_eraseIdx]
  split
  next hlt => rw [moved, if_neg (by omega), h i (by omega)]
  next hge =>
    rw [moved, if_pos (by omega), show k + 1 + (i - k) = i + 1 by omega, h (i + 1) (by omega)]

theorem Holds.take : Holds buf (text.take k) := by
  intro i hi
  rw [length_take] at hi
  rw [getElem_take, h i (by omega)]

end

theorem holds_storeBytes (buf : Memory) (line : Line) :
    Holds (storeBytes 0 (line ++ [0]) buf) line := by
  intro i hi
  rw [storeBytes_apply, if_pos (by simp; omega), Nat.sub_zero, getD_append _ _ _ _ hi,
    getD_eq_getElem _ _ hi]

/-! ## One key -/

structure Refines (len : Nat) (e : Edit) (a : Editor) : Prop where
  num : e.num = a.cursor
  eolNum : e.eolNum = a.text.length
  insert : e.insert = a.insert
  esc : e.esc = []
  buf : Holds e.buf a.text
  hist : e.hist = a.hist
  cursor_le : a.cursor ≤ a.text.length
  text_le : a.text.length ≤ len
  nul : 0 ∉ a.text

def HistFits (len : Nat) (hist : Hist) : Prop :=
  ∀ i, (hist.histList i).length ≤ len ∧ 0 ∉ hist.histList i

def Fits (size : Nat) (a : Editor) : Key → Prop
  | .prev => ∀ line, (histPrev a.hist).2 = some line → line.length < size
  | .next => ∀ line, (histNext a.hist).2 = some line → line.length < size
  | _ => True

variable {len size : Nat} {e : Edit} {a : Editor} {c : UInt8}

theorem histPrev_fits (h : HistFits len hist) : HistFits len (histPrev hist).1 ∧
      ∀ line, (histPrev hist).2 = some line → line.length ≤ len ∧ 0 ∉ line := by
  unfold histPrev
  split
  · exact ⟨h, fun _ hnone => nomatch hnone⟩
  · split
    · exact ⟨h, fun _ hnone => nomatch hnone⟩
    · refine ⟨h, ?_⟩
      rintro line ⟨⟩
      exact h _

theorem histNext_fits (h : HistFits len hist) : HistFits len (histNext hist).1 ∧
      ∀ line, (histNext hist).2 = some line → line.length ≤ len ∧ 0 ∉ line := by
  unfold histNext
  split
  · exact ⟨h, fun _ hnone => nomatch hnone⟩
  · split
    · exact ⟨h, fun _ hnone => nomatch hnone⟩
    · split
      · refine ⟨h, ?_⟩
        rintro line ⟨⟩
        exact ⟨Nat.zero_le _, not_mem_nil⟩
      · refine ⟨h, ?_⟩
        rintro line ⟨⟩
        exact h _

theorem memmoveIf_eq [Decidable p] (hp : ¬ p → n = 0) (hdest : dest + n ≤ size)
    (hsrc : src + n ≤ size) : memmoveIf p size dest src n buf = .ok (moved dest src n buf) := by
  unfold memmoveIf
  split
  next => rw [memmove, if_pos ⟨hdest, hsrc⟩]
  next h => rw [hp h, moved_zero]

theorem creadPutChar_insert (h : Refines len e a) (hsize : len ≤ size)
    (hroom : a.text.length < len) (hc : c ≠ 0) :
    ∃ e', creadPutChar size c true { e with eolNum := e.eolNum + 1 } = .ok e' ∧
      Refines len e' { a with text := a.text.insertIdx a.cursor c, cursor := a.cursor + 1 } := by
  obtain ⟨hnum, heol, hins, hesc, hbuf, hhist, hcursor, htext, hnul⟩ := h
  refine ⟨{ e with
    num := e.num + 1
    eolNum := e.eolNum + 1
    buf := update (moved (e.num + 1) e.num (e.eolNum - e.num) e.buf) e.num c }, ?_, ?_⟩
  · rw [creadPutChar, if_pos rfl]
    dsimp only
    rw [memmoveIf_eq (by omega) (by omega) (by omega), ok_bind, putByte, if_pos (by omega), ok_bind,
      show e.eolNum + 1 - e.num - 1 = e.eolNum - e.num by omega]
  · refine ⟨?_, ?_, hins, hesc, ?_, hhist, ?_, ?_, ?_⟩
    · simp [hnum]
    · simp [heol, length_insertIdx, hcursor]
    · rw [hnum, heol]
      exact hbuf.insertIdx hcursor c
    · simp [length_insertIdx, hcursor]
    · simp [length_insertIdx, hcursor]
      omega
    · rw [mem_insertIdx hcursor]
      simp [hnul, Ne.symm hc]

theorem creadPutChar_append (hend : e.num + 1 = e.eolNum) :
    creadPutChar size c false e = creadPutChar size c true e := by
  rw [creadPutChar, creadPutChar, if_neg (by decide), if_pos rfl]
  simp only [memmoveIf]
  rw [if_neg (by omega), ok_bind]

section
variable (h : Refines len e a)
include h

theorem creadPutChar_overwrite (hsize : len ≤ size) (hlt : a.cursor < a.text.length) (hc : c ≠ 0) :
    ∃ e', creadPutChar size c false e = .ok e' ∧
      Refines len e' { a with text := a.text.set a.cursor c, cursor := a.cursor + 1 } := by
  obtain ⟨hnum, heol, hins, hesc, hbuf, hhist, hcursor, htext, hnul⟩ := h
  refine ⟨{ e with num := e.num + 1, buf := update e.buf e.num c }, ?_, ?_⟩
  · rw [creadPutChar, if_neg (by decide), putByte, if_pos (by omega), ok_bind]
  · refine ⟨?_, ?_, hins, hesc, ?_, hhist, ?_, ?_, ?_⟩
    · simp [hnum]
    · simp [heol]
    · rw [hnum]
      exact hbuf.set c
    · simpa using hlt
    · simpa using htext
    · intro hmem
      rcases mem_or_eq_of_mem_set hmem with hmem | heq
      · exact hnul hmem
      · exact hc heq.symm

theorem creadAddChar_refines (hlen : 0 < len) (hsize : len ≤ size) (hc : c ≠ 0) :
    ∃ e', creadAddChar len size c e.insert e = .ok e' ∧ Refines len e' (a.press len (.char c)) := by
  have hnum := h.num
  have heol := h.eolNum
  have hins := h.insert
  rw [Editor.press, creadAddChar]
  by_cases hgrows : a.insert ∨ a.cursor = a.text.length
  · rw [if_pos hgrows, if_pos (by rwa [hins, hnum, heol])]
    by_cases hroom : a.text.length < len
    · rw [if_pos hroom, if_neg (by omega)]
      have hput := creadPutChar_insert h hsize hroom hc
      cases hmode : e.insert with
      | true =>
        rw [hmode] at hput
        exact hput
      | false =>
        have hend : a.cursor = a.text.length := by simpa [← hins, hmode] using hgrows
        rw [creadPutChar_append (by simp; omega)]
        rw [hmode] at hput
        exact hput
    · rw [if_neg hroom, if_pos (by omega)]
      exact ⟨e, rfl, h⟩
  · rw [if_neg hgrows, if_neg (by rwa [hins, hnum, heol])]
    have hcursor := h.cursor_le
    have hmode : e.insert = false := by
      cases hmode : e.insert with
      | true => exact absurd (.inl (hins ▸ hmode)) hgrows
      | false => rfl
    have hlt : a.cursor < a.text.length :=
      lt_of_le_of_ne hcursor fun heq => hgrows (.inr heq)
    rw [hmode]
    exact creadPutChar_overwrite h hsize hlt hc

theorem putHline_refines (hline : ∀ line, r.2 = some line → line.length ≤ len ∧ 0 ∉ line)
    (hfits : ∀ line, r.2 = some line → line.length < size) :
    ∃ e', putHline size e r = .ok e' ∧ Refines len e' (a.show r) := by
  obtain ⟨hist, _ | line⟩ := r
  · exact ⟨_, rfl, h.num, h.eolNum, h.insert, rfl, h.buf, rfl, h.cursor_le, h.text_le, h.nul⟩
  · have hput : putHline size e (hist, some line) = .ok { e with
        num := line.length, eolNum := line.length, esc := [], hist := hist
        buf := storeBytes 0 (line ++ [0]) e.buf } := by
      rw [putHline, strcpy, if_pos (hfits line rfl), ok_bind]
    exact ⟨_, hput, rfl, rfl, h.insert, rfl, holds_storeBytes e.buf line, rfl, Nat.le_refl _,
      (hline line rfl).1, (hline line rfl).2⟩

theorem switch_refines (hhist : HistFits len a.hist) (hlen : 0 < len) (hsize : len ≤ size)
    (haction : action c = key.action) (hchar : ∀ c', key = .char c' → c' = c ∧ c ≠ 0)
    (hfits : Fits size a key) :
    ∃ e', switch len size e c = .ok (.goOn e') ∧ Refines len e' (a.press len key) := by
  have hnum := h.num
  have heol := h.eolNum
  have hcursor := h.cursor_le
  have htext := h.text_le
  unfold switch
  rw [haction]
  cases key with
  | char c' =>
    obtain ⟨rfl, hc⟩ := hchar c' rfl
    obtain ⟨e', hadd, h'⟩ := creadAddChar_refines (c := c') h hlen hsize hc
    refine ⟨e', ?_, h'⟩
    simp [Key.action, hadd, ok_bind]
  | left =>
    refine ⟨_, rfl, ?_, heol, h.insert, h.esc, h.buf, h.hist, ?_, htext, h.nul⟩
    · simp [hnum, Editor.press]
    · simp [Editor.press]
      omega
  | right =>
    refine ⟨_, rfl, ?_, heol, h.insert, h.esc, h.buf, h.hist, ?_, htext, h.nul⟩
    · simp only [Editor.press, hnum, heol]
      split <;> omega
    · exact Nat.min_le_right _ _
  | home =>
    exact ⟨_, rfl, rfl, heol, h.insert, h.esc, h.buf, h.hist, Nat.zero_le _, htext, h.nul⟩
  | toEnd =>
    refine ⟨_, rfl, ?_, heol, h.insert, h.esc, h.buf, h.hist, Nat.le_refl _, htext, h.nul⟩
    simp only [Editor.press, hnum, heol]
    split <;> omega
  | delete =>
    simp only [Key.action, Editor.press]
    split
    next hlt =>
      rw [memmoveIf_eq (by omega) (by omega) (by omega), ok_bind]
      refine ⟨_, rfl, hnum, ?_, h.insert, h.esc, ?_, h.hist, ?_, ?_, ?_⟩
      · simp only [length_eraseIdx, heol]
        rw [if_pos (by omega)]
      · simp only [hnum, heol]
        exact h.buf.eraseIdx (by omega)
      · simp only [length_eraseIdx]
        split <;> omega
      · simp only [length_eraseIdx]
        split <;> omega
      · exact fun hmem => h.nul (mem_of_mem_eraseIdx hmem)
    next hge =>
      rw [eraseIdx_of_length_le (by omega)]
      exact ⟨e, rfl, h⟩
  | backspace =>
    simp only [Key.action, Editor.press]
    split
    next hne =>
      rw [if_neg (by omega), memmove, if_pos (by omega), ok_bind]
      refine ⟨_, rfl, ?_, ?_, h.insert, h.esc, ?_, h.hist, ?_, ?_, ?_⟩
      · simp [hnum]
      · simp only [length_eraseIdx, heol]
        rw [if_pos (by omega)]
      · have hmoved := h.buf.eraseIdx (k := a.cursor - 1) (by omega)
        rw [show a.cursor - 1 + 1 = a.cursor by omega,
          show a.text.length - (a.cursor - 1) - 1 = a.text.length - a.cursor by omega] at hmoved
        simp only [hnum, heol]
        exact hmoved
      · simp only [length_eraseIdx]
        split <;> omega
      · simp only [length_eraseIdx]
        split <;> omega
      · exact fun hmem => h.nul (mem_of_mem_eraseIdx hmem)
    next heq =>
      rw [if_pos (by omega)]
      exact ⟨e, rfl, h⟩
  | killToEnd =>
    refine ⟨_, rfl, hnum, ?_, h.insert, h.esc, h.buf.take, h.hist, ?_, ?_, ?_⟩
    · simp only [Editor.press, length_take, hnum, heol]
      split <;> omega
    · simp only [Editor.press, length_take]
      omega
    · simp only [Editor.press, length_take]
      omega
    · exact fun hmem => h.nul (mem_of_mem_take hmem)
  | killLine =>
    exact ⟨_, rfl, rfl, rfl, h.insert, h.esc, fun i hi => absurd hi (Nat.not_lt_zero i), h.hist,
      Nat.le_refl _, Nat.zero_le _, not_mem_nil⟩
  | toggleInsert =>
    refine ⟨_, rfl, hnum, heol, ?_, h.esc, h.buf, h.hist, hcursor, htext, h.nul⟩
    simp [Editor.press, h.insert]
  | prev =>
    obtain ⟨e', hput, h'⟩ := putHline_refines (r := histPrev a.hist) h (histPrev_fits hhist).2 hfits
    refine ⟨e', ?_, h'⟩
    simp [Key.action, h.hist, hput, ok_bind]
  | next =>
    obtain ⟨e', hput, h'⟩ := putHline_refines (r := histNext a.hist) h (histNext_fits hhist).2 hfits
    refine ⟨e', ?_, h'⟩
    simp [Key.action, h.hist, hput, ok_bind]

end

theorem putHline_faults (hline : ¬ ∀ line, r.2 = some line → line.length < size) :
    putHline size e r = .error .buffer := by
  obtain ⟨hist, _ | line⟩ := r
  · exact absurd (fun _ hnone => nomatch hnone) hline
  · rw [putHline, strcpy, if_neg (by simpa using hline)]
    rfl

theorem switch_faults (h : Refines len e a) (haction : action c = key.action)
    (hfits : ¬ Fits size a key) : switch len size e c = .error .buffer := by
  unfold switch
  rw [haction]
  cases key with
  | prev | next =>
    simp only [Key.action, h.hist, putHline_faults hfits]
    rfl
  | _ => exact absurd trivial hfits

theorem Editor.show_hist (a : Editor) (r : Hist × Option Line) : (a.show r).hist = r.1 := by
  obtain ⟨hist, _ | line⟩ := r <;> rfl

theorem HistFits.press (h : HistFits len a.hist) (key : Key) :
    HistFits len (a.press size key).hist := by
  cases key with
  | char c =>
    rw [Editor.press]
    split
    · split <;> exact h
    · exact h
  | backspace =>
    rw [Editor.press]
    split <;> exact h
  | prev =>
    rw [Editor.press, Editor.show_hist]
    exact (histPrev_fits h).1
  | next =>
    rw [Editor.press, Editor.show_hist]
    exact (histNext_fits h).1
  | _ => exact h

/-! ## The characters of a key -/

theorem action_line_end : ∀ c : UInt8, c = 10 ∨ c = 13 → action c = .other := by
  rintro c (rfl | rfl) <;> rfl

theorem creadKeys_control (hesc : e.esc = []) (hc : ¬ (c = 10 ∨ c = 13)) (rest : List UInt8) :
    creadKeys len size e (c :: rest) =
      switch len size e c >>= goOnWith fun e => creadKeys len size e rest := by
  simp [creadKeys, creadKey, if_neg hc, hesc]

theorem creadKeys_arrow (hesc : e.esc = []) (hc : arrow c = some code)
    (rest : List UInt8) :
    creadKeys len size e (0x1b :: 91 :: c :: rest) =
      switch len size e code >>= goOnWith fun e => creadKeys len size e rest := by
  have hline : ¬ (c = 10 ∨ c = 13) := by
    rintro (rfl | rfl) <;> cases hc
  have hfirst : switch len size e 0x1b = .ok (.goOn { e with esc := [0x1b] }) := by
    simp [switch, show action 0x1b = .escape from rfl, hesc]
  have hback : { e with esc := [] } = e := by
    rw [← hesc]
  have hsecond : creadKey len size { e with esc := [0x1b] } 91 =
      .ok (.goOn { e with esc := [0x1b, 91] }) := by
    rw [creadKey, if_neg (by decide)]
    rfl
  have hthird : creadKey len size { e with esc := [0x1b, 91] } c = switch len size e code := by
    simp [creadKey, if_neg hline, hc, hback]
  rw [creadKeys_control hesc (by decide), hfirst, ok_bind]
  simp [goOnWith, creadKeys, hsecond, ok_bind, hthird]

theorem Sends.switch (h : Sends key codes) (hesc : e.esc = []) :
    ∃ c, action c = key.action ∧ (∀ c', key = .char c' → c' = c ∧ c ≠ 0) ∧
      ∀ rest, creadKeys len size e (codes ++ rest) =
        LineEditor.switch len size e c >>= goOnWith fun e => creadKeys len size e rest := by
  cases h with
  | @char c h hc =>
    refine ⟨c, h, ?_, fun rest => creadKeys_control hesc (by tauto) rest⟩
    rintro c' ⟨⟩
    exact ⟨rfl, by tauto⟩
  | @control _ c hkey h =>
    refine ⟨c, h, fun c' hc' => absurd hc' (hkey c'), fun rest => creadKeys_control hesc ?_ rest⟩
    intro hline
    rw [action_line_end c hline] at h
    cases key with
    | char c' => exact hkey c' rfl
    | _ => cases h
  | @arrow _ c code hc h =>
    refine ⟨code, h, ?_, fun rest => creadKeys_arrow hesc hc rest⟩
    rintro c' rfl
    -- no escape sequence stands for a character
    unfold LineEditor.arrow at hc
    split_ifs at hc <;> cases hc <;> cases h

theorem creadKeys_key (hsends : Sends key codes) (h : Refines len e a) (hhist : HistFits len a.hist)
    (hlen : 0 < len) (hsize : len ≤ size) :
    (Fits size a key → ∃ e', Refines len e' (a.press len key) ∧
      ∀ rest, creadKeys len size e (codes ++ rest) = creadKeys len size e' rest) ∧
    (¬ Fits size a key → ∀ rest, creadKeys len size e (codes ++ rest) = .error .buffer) := by
  obtain ⟨c, haction, hchar, hkeys⟩ := hsends.switch h.esc
  refine ⟨fun hfits => ?_, fun hfits rest => ?_⟩
  · obtain ⟨e', hswitch, h'⟩ := switch_refines h hhist hlen hsize haction hchar hfits
    refine ⟨e', h', fun rest => ?_⟩
    rw [hkeys, hswitch, ok_bind, goOnWith]
  · rw [hkeys, switch_faults h haction hfits]
    rfl

/-! ## A line -/

def Editor.type (capacity : Nat) (a : Editor) (keys : List Key) : Editor :=
  keys.foldl (Editor.press capacity) a

def AllFit (capacity size : Nat) : Editor → List Key → Prop
  | a, [] => a.text.length < size
  | a, key :: keys => Fits size a key ∧ AllFit capacity size (a.press capacity key) keys

theorem creadAddBuf_eq (hsize : len ≤ size) (buf : Memory) (hist : Hist) (n i : Nat)
    (hlen : i + n ≤ len) :
    creadAddBuf len size n i ⟨i, i, true, [], buf, hist⟩ =
      .ok ⟨i + n, i + n, true, [], buf, hist⟩ := by
  induction n generalizing i with
  | zero => rfl
  | succ n ih =>
    have hadd : creadAddChar len size (buf i) true ⟨i, i, true, [], buf, hist⟩ =
        .ok ⟨i + 1, i + 1, true, [], buf, hist⟩ := by
      rw [creadAddChar, if_pos (.inl rfl), if_neg (by simp; omega), creadPutChar, if_pos rfl]
      dsimp only
      rw [memmoveIf_eq (by omega) (by omega) (by omega), ok_bind, putByte, if_pos (by omega),
        ok_bind, show i + 1 - i - 1 = 0 by omega, moved_zero, update_eq_self]
    rw [creadAddBuf]
    dsimp only
    rw [hadd, ok_bind, ih (i + 1) (by omega), show i + 1 + n = i + (n + 1) by omega]

theorem Holds.terminated (h : Holds buf text) : Holds (Function.update buf text.length 0) text := by
  intro i hi
  rw [update_of_ne (by omega), h i hi]

theorem Holds.textBefore (h : Holds buf text) (hnul : 0 ∉ text) :
    textBefore buf text.length = text := by
  have htext : (range text.length).map buf = text := by
    refine ext_getElem (by simp) fun i hi hi' => ?_
    simp [h i hi']
  rw [LineEditor.textBefore, htext, takeWhile_eq_self_iff]
  intro c hc
  simpa using fun h : c = 0 => hnul (h ▸ hc)

theorem creadKeys_enter (h : Refines len e a) (henter : enter = 10 ∨ enter = 13) :
    creadKeys len size e [enter] =
      if a.text.length < size then
        .ok (.stop (.line a.text.length (Function.update e.buf a.text.length 0)
          (enterLine a.hist a.text)))
      else .error .buffer := by
  rw [creadKeys, creadKey, if_pos henter, finish, h.eolNum, putByte]
  split
  · rw [ok_bind, h.buf.terminated.textBefore h.nul, h.hist]
    rfl
  · rfl

theorem creadKeys_keys (hsends : List.Forall₂ Sends keys codes)
    (h : Refines len e a) (hhist : HistFits len a.hist) (hlen : 0 < len) (hsize : len ≤ size)
    (henter : enter = 10 ∨ enter = 13) :
    (AllFit len size a keys → ∃ e', Refines len e' (a.type len keys) ∧
      (a.type len keys).text.length < size ∧
      ∀ rest, creadKeys len size e (codes.flatten ++ rest) = creadKeys len size e' rest) ∧
    (¬ AllFit len size a keys →
      creadKeys len size e (codes.flatten ++ [enter]) = .error .buffer) := by
  induction hsends generalizing e a with
  | nil =>
    refine ⟨fun hfits => ⟨e, h, hfits, fun rest => rfl⟩, fun hfits => ?_⟩
    rw [flatten_nil, nil_append, creadKeys_enter h henter,
      if_neg (show ¬ a.text.length < size from hfits)]
  | @cons key code keys codes hkey hkeys ih =>
    obtain ⟨hgood, hbad⟩ := creadKeys_key hkey h hhist hlen hsize
    rw [flatten_cons]
    by_cases hfits : Fits size a key
    · obtain ⟨e', h', hrun⟩ := hgood hfits
      obtain ⟨hgood', hbad'⟩ := ih h' (hhist.press key)
      refine ⟨fun hall => ?_, fun hall => ?_⟩
      · obtain ⟨e'', h'', hroom, hrun'⟩ := hgood' hall.2
        refine ⟨e'', h'', hroom, fun rest => ?_⟩
        rw [append_assoc, hrun, hrun']
      · rw [append_assoc, hrun]
        exact hbad' fun hrest => hall ⟨hfits, hrest⟩
    · refine ⟨fun hall => absurd hall.1 hfits, fun _ => ?_⟩
      rw [append_assoc, hbad hfits]

theorem Editor.show_text_le (htext : a.text.length ≤ len)
    (hline : ∀ line, r.2 = some line → line.length ≤ len) : (a.show r).text.length ≤ len := by
  obtain ⟨hist, _ | line⟩ := r
  · exact htext
  · exact hline line rfl

theorem Editor.press_text_le (htext : a.text.length ≤ len) (hhist : HistFits len a.hist)
    (key : Key) : (a.press len key).text.length ≤ len := by
  cases key with
  | char c =>
    rw [Editor.press]
    split
    · split
      · simp only [length_insertIdx]
        split <;> omega
      · exact htext
    · simpa using htext
  | delete => exact (length_eraseIdx_le ..).trans htext
  | backspace =>
    rw [Editor.press]
    split
    · exact htext
    · exact (length_eraseIdx_le ..).trans htext
  | killToEnd => exact (length_take_le' ..).trans htext
  | killLine => exact Nat.zero_le _
  | prev => exact show_text_le htext fun line h => ((histPrev_fits hhist).2 line h).1
  | next => exact show_text_le htext fun line h => ((histNext_fits hhist).2 line h).1
  | _ => exact htext

theorem allFit_of_lt (hsize : len < size) (htext : a.text.length ≤ len)
    (hhist : HistFits len a.hist) (keys : List Key) : AllFit len size a keys := by
  induction keys generalizing a with
  | nil => exact Nat.lt_of_le_of_lt htext hsize
  | cons key keys ih =>
    refine ⟨?_, ih (Editor.press_text_le htext hhist key) (hhist.press key)⟩
    cases key with
    | prev =>
      intro line hline
      exact Nat.lt_of_le_of_lt ((histPrev_fits hhist).2 line hline).1 hsize
    | next =>
      intro line hline
      exact Nat.lt_of_le_of_lt ((histNext_fits hhist).2 line hline).1 hsize
    | _ => trivial

/-- A text of the buffer and the keys: the editor stays in the buffer, keeps its positions in the
line and ends with the text of the abstract editor exactly if all lines have room for their NUL. -/
theorem creadLine_refines_iff (len size : Nat) (hlen : 0 < len) (hsize : len ≤ size) (init : Line)
    (buf : Memory) (hist : Hist) (hinit : Holds buf init) (hfull : init.length ≤ len)
    (hnul : 0 ∉ init) (hhist : HistFits len hist) (keys : List Key) (codes : List (List UInt8))
    (hsends : List.Forall₂ Sends keys codes) (enter : UInt8) (henter : enter = 10 ∨ enter = 13) :
    let a := Editor.type len ⟨init, init.length, true, hist⟩ keys
    (∃ e, creadLine len size init.length buf hist codes.flatten = .ok (.goOn e) ∧
      e.num ≤ e.eolNum ∧ e.eolNum ≤ len ∧
      ∃ buf', creadLine len size init.length buf hist (codes.flatten ++ [enter]) =
        .ok (.stop (.line a.text.length buf' (enterLine a.hist a.text))) ∧
        Holds buf' a.text ∧ buf' a.text.length = 0) ↔
      AllFit len size ⟨init, init.length, true, hist⟩ keys := by
  intro a
  have hstart : Refines len ⟨init.length, init.length, true, [], buf, hist⟩
      ⟨init, init.length, true, hist⟩ :=
    ⟨rfl, rfl, rfl, rfl, hinit, rfl, Nat.le_refl _, hfull, hnul⟩
  have hload := creadAddBuf_eq hsize buf hist init.length 0 (by omega)
  rw [Nat.zero_add] at hload
  obtain ⟨hgood, hbad⟩ := creadKeys_keys hsends hstart hhist hlen hsize henter
  simp only [creadLine, hload, ok_bind]
  constructor
  · rintro ⟨e, -, -, -, buf', hrun, -⟩
    by_contra hfits
    rw [hbad hfits] at hrun
    cases hrun
  · intro hfits
    obtain ⟨e, h, hroom, hrun⟩ := hgood hfits
    refine ⟨e, ?_, ?_, ?_, _, ?_, h.buf.terminated, update_self _ _ _⟩
    · rw [← append_nil codes.flatten, hrun, creadKeys]
    · rw [h.num, h.eolNum]
      exact h.cursor_le
    · rw [h.eolNum]
      exact h.text_le
    · rw [hrun, creadKeys_enter h henter, if_pos hroom]

/-- The letters `ab`, the cursor to the left, and `c`, in the buffer of the console. -/
theorem creadLine_refines_abc :
    let a := Editor.type 4 ⟨[], 0, true, histInit⟩ [.char 97, .char 98, .left, .char 99]
    a.text = [97, 99, 98] ∧
    ∃ e, creadLine 4 5 0 (fun _ => 0) histInit [97, 98, 0x1b, 91, 68, 99] = .ok (.goOn e) ∧
      e.num ≤ e.eolNum ∧ e.eolNum ≤ 4 ∧
      ∃ buf', creadLine 4 5 0 (fun _ => 0) histInit [97, 98, 0x1b, 91, 68, 99, 13] =
        .ok (.stop (.line a.text.length buf' (enterLine a.hist a.text))) ∧
        Holds buf' a.text ∧ buf' a.text.length = 0 := by
  refine ⟨rfl, ?_⟩
  have hkeys : List.Forall₂ Sends [.char 97, .char 98, .left, .char 99]
      [[97], [98], [0x1b, 91, 68], [99]] :=
    .cons (.char rfl (by decide)) (.cons (.char rfl (by decide)) (.cons (.arrow rfl rfl)
      (.cons (.char rfl (by decide)) .nil)))
  refine (creadLine_refines_iff 4 5 (by decide) (by decide) [] (fun _ => 0) histInit
    (fun i hi => absurd hi (Nat.not_lt_zero i)) (by decide) not_mem_nil
    (fun i => ⟨Nat.zero_le 4, not_mem_nil⟩) _ _ hkeys 13 (.inr rfl)).mpr ?_
  exact allFit_of_lt (by decide) (by decide) (fun i => ⟨Nat.zero_le 4, not_mem_nil⟩) _

/-- `do_env_edit` calls the editor with a buffer of as many bytes as the editor takes characters:
the NUL behind a full line is written beyond it. -/
theorem creadLine_overruns :
    creadLine 1024 1024 0 (fun _ => 0) histInit (List.replicate 1024 97 ++ [13]) =
      .error .buffer := by
  have hfault : (creadLine 1024 1024 0 (fun _ => 0) histInit
      (replicate 1024 97 ++ [13])).toBool = false := by decide +kernel
  cases hrun : creadLine 1024 1024 0 (fun _ => 0) histInit (replicate 1024 97 ++ [13]) with
  | ok next =>
    rw [hrun] at hfault
    cases hfault
  | error fault =>
    cases fault
    rfl

end UBoot.Shell.LineEditor
