import UBoot.Lib.Machine

/-!
# The command history

The ring of recent lines of `common/main.c`, as the line editor uses it. The ring has one line
more than can be reached, since the place of the next line marks its end. A line is never
longer than `CONFIG_SYS_CBSIZE`.
-/

namespace UBoot.Shell.History

open List

abbrev Line := List UInt8

def histSlots : Nat := 20

def creadHistChar : UInt8 := 33

structure Hist where
  histMax : Nat
  histAddIdx : Nat
  histCur : Int
  histNum : Nat
  histList : Nat → Line

def histInit : Hist := ⟨0, 0, -1, 0, fun _ => []⟩

def creadAddToHist (h : Hist) (line : Line) : Hist :=
  let histAddIdx := if histSlots ≤ h.histAddIdx + 1 then 0 else h.histAddIdx + 1
  { h with
    histList := Function.update h.histList h.histAddIdx line
    histAddIdx := histAddIdx
    histMax := if h.histMax < histAddIdx then histAddIdx else h.histMax
    histNum := (h.histNum + 1) % 2 ^ 32 }

def before (h : Hist) : Int :=
  if h.histCur - 1 < 0 then h.histMax else h.histCur - 1

def histPrev (h : Hist) : Hist × Option Line :=
  if h.histCur < 0 then (h, none)
  else if before h = h.histAddIdx then (h, none)
  else ({ h with histCur := before h }, some (h.histList (before h).toNat))

def behind (h : Hist) : Int :=
  if h.histCur + 1 > h.histMax then 0 else h.histCur + 1

def histNext (h : Hist) : Hist × Option Line :=
  if h.histCur < 0 then (h, none)
  else if h.histCur = h.histAddIdx then (h, none)
  else if behind h = h.histAddIdx then ({ h with histCur := behind h }, some [])
  else ({ h with histCur := behind h }, some (h.histList (behind h).toNat))

def Recorded (line : Line) : Bool :=
  match line with
  | [] => false
  | c :: _ => c != creadHistChar

def enterLine (h : Hist) (line : Line) : Hist :=
  let h := if Recorded line then creadAddToHist h line else h
  { h with histCur := h.histAddIdx }

inductive Input where
  | enter (line : Line)
  | prev
  | next

def editor : Machine Hist Input (Option Line) where
  step h
    | .enter line => (enterLine h line, none)
    | .prev => histPrev h
    | .next => histNext h

def added : List Line → List Input → List Line
  | lines, [] => lines
  | lines, .enter line :: is => added (if Recorded line then line :: lines else lines) is
  | lines, _ :: is => added lines is

/-! ## A cursor in the recent lines -/

def reach (lines : List Line) : Nat := min lines.length (histSlots - 1)

def lineAt (lines : List Line) : Nat → Option Line
  | 0 => some []
  | k + 1 => lines[k]?

/-- The ring holds the recent lines, and the cursor is on the one at `pos`. -/
structure Represents (h : Hist) (lines : List Line) (pos : Nat) : Prop where
  addIdx : h.histAddIdx = lines.length % histSlots
  max : h.histMax = reach lines
  pos_le : pos ≤ reach lines
  cur : h.histCur = -1 ∧ lines = [] ∨ h.histCur = ((lines.length - pos) % histSlots : Nat)
  slot : ∀ k < reach lines, lines[k]? = some (h.histList ((lines.length - 1 - k) % histSlots))

variable {h : Hist} {lines : List Line} {pos : Nat}

theorem represents_init : Represents histInit [] 0 where
  addIdx := rfl
  max := rfl
  pos_le := Nat.le_refl 0
  cur := .inl ⟨rfl, rfl⟩
  slot := fun k hk => absurd hk (Nat.not_lt_zero k)

section
variable (hr : Represents h lines pos)
include hr

theorem Represents.reset : Represents { h with histCur := h.histAddIdx } lines 0 where
  addIdx := hr.addIdx
  max := hr.max
  pos_le := Nat.zero_le _
  cur := .inr (by simp [hr.addIdx])
  slot := hr.slot

theorem Represents.add (line : Line) : Represents { creadAddToHist h line with
      histCur := (creadAddToHist h line).histAddIdx } (line :: lines) 0 := by
  obtain ⟨haddIdx, hmax, -, -, hslot⟩ := hr
  have hnext : (creadAddToHist h line).histAddIdx = (lines.length + 1) % histSlots := by
    simp only [creadAddToHist, haddIdx, histSlots]
    split <;> omega
  refine ⟨hnext, ?_, Nat.zero_le _, .inr (by simp [hnext]), ?_⟩
  · change (if h.histMax < (creadAddToHist h line).histAddIdx then
      (creadAddToHist h line).histAddIdx else h.histMax) = reach (line :: lines)
    simp only [reach, histSlots, length_cons] at hnext hmax ⊢
    split <;> omega
  · intro k hk
    simp only [reach, histSlots, length_cons] at hk
    cases k with
    | zero =>
      simp [creadAddToHist, haddIdx]
    | succ k =>
      have hplace : lines.length + 1 - 1 - (k + 1) = lines.length - 1 - k := by omega
      have hne : (lines.length - 1 - k) % histSlots ≠ h.histAddIdx := by
        simp only [haddIdx, histSlots]
        omega
      have hold := hslot k (by simp only [reach, histSlots]; omega)
      simp only [getElem?_cons_succ, length_cons, hplace, creadAddToHist,
        Function.update_of_ne hne]
      exact hold

theorem Represents.enterLine (line : Line) :
    Represents (enterLine h line) (if Recorded line then line :: lines else lines) 0 := by
  unfold History.enterLine
  by_cases hrec : Recorded line
  · simp only [if_pos hrec]
    exact hr.add line
  · simp only [if_neg hrec]
    exact hr.reset

theorem Represents.cur_nonneg (hpos : 0 < reach lines) :
    h.histCur = ((lines.length - pos) % histSlots : Nat) := by
  obtain ⟨-, rfl⟩ | hcur := hr.cur
  · exact absurd hpos (by decide)
  · exact hcur

theorem Represents.lineAt_slot (hk : k < reach lines) {place : Int}
    (hplace : place = ((lines.length - (k + 1)) % histSlots : Nat)) :
    some (h.histList place.toNat) = lineAt lines (k + 1) := by
  have hsub : lines.length - (k + 1) = lines.length - 1 - k := by omega
  rw [hplace, hsub, Int.toNat_natCast, lineAt, hr.slot k hk]

theorem Represents.histPrev_of_lt (hpos : pos < reach lines) :
    histPrev h = ({ h with histCur := before h }, lineAt lines (pos + 1)) ∧
      Represents { h with histCur := before h } lines (pos + 1) := by
  have hcur := hr.cur_nonneg (by omega)
  have hbefore : before h = ((lines.length - (pos + 1)) % histSlots : Nat) := by
    have hmax := hr.max
    simp only [reach, histSlots] at hpos hcur hmax ⊢
    rw [before]
    split <;> omega
  have hne : before h ≠ h.histAddIdx := by
    rw [hbefore, hr.addIdx]
    simp only [reach, histSlots] at hpos ⊢
    omega
  refine ⟨?_, hr.addIdx, hr.max, hpos, .inr hbefore, hr.slot⟩
  rw [histPrev, if_neg (by omega), if_neg hne, hr.lineAt_slot hpos hbefore]

theorem Represents.histPrev_of_end (hpos : pos = reach lines) : histPrev h = (h, none) := by
  rw [histPrev]
  obtain ⟨hcur, -⟩ | hcur := hr.cur
  · exact if_pos (by omega)
  · have hbefore : before h = h.histAddIdx := by
      have hmax := hr.max
      have haddIdx := hr.addIdx
      simp only [reach, histSlots] at hpos hcur hmax haddIdx
      rw [before]
      split <;> omega
    rw [if_neg (by omega), if_pos hbefore]

end

theorem Represents.histNext_of_pos (hr : Represents h lines (pos + 1)) :
    histNext h = ({ h with histCur := behind h }, lineAt lines pos) ∧
      Represents { h with histCur := behind h } lines pos := by
  have hpos := hr.pos_le
  have hcur := hr.cur_nonneg (by omega)
  have hbehind : behind h = ((lines.length - pos) % histSlots : Nat) := by
    have hmax := hr.max
    simp only [reach, histSlots] at hpos hcur hmax ⊢
    rw [behind]
    split <;> omega
  have hne : h.histCur ≠ h.histAddIdx := by
    rw [hcur, hr.addIdx]
    simp only [reach, histSlots] at hpos ⊢
    omega
  refine ⟨?_, hr.addIdx, hr.max, by omega, .inr hbehind, hr.slot⟩
  rw [histNext, if_neg (by omega), if_neg hne]
  cases pos with
  | zero => rw [if_pos (by rw [hbehind, hr.addIdx, Nat.sub_zero]), lineAt]
  | succ pos =>
    have hne' : behind h ≠ h.histAddIdx := by
      rw [hbehind, hr.addIdx]
      simp only [reach, histSlots] at hpos ⊢
      omega
    rw [if_neg hne', hr.lineAt_slot (by omega) hbehind]

theorem Represents.histNext_of_zero (hr : Represents h lines 0) : histNext h = (h, none) := by
  rw [histNext]
  obtain ⟨hcur, -⟩ | hcur := hr.cur
  · exact if_pos (by omega)
  · rw [if_neg (by omega), if_pos (by rw [hcur, hr.addIdx, Nat.sub_zero])]

/-! ## Runs -/

section
variable (hr : Represents h lines pos)
include hr

theorem Represents.step (i : Input) :
    ∃ pos', Represents (editor.step h i).1 (added lines [i]) pos' := by
  cases i with
  | enter line => exact ⟨0, hr.enterLine line⟩
  | prev =>
    change ∃ pos', Represents (histPrev h).1 lines pos'
    rcases Nat.lt_or_eq_of_le hr.pos_le with hlt | heq
    · obtain ⟨hprev, hr'⟩ := hr.histPrev_of_lt hlt
      exact ⟨pos + 1, hprev ▸ hr'⟩
    · exact ⟨pos, hr.histPrev_of_end heq ▸ hr⟩
  | next =>
    change ∃ pos', Represents (histNext h).1 lines pos'
    cases pos with
    | zero => exact ⟨0, hr.histNext_of_zero ▸ hr⟩
    | succ pos =>
      obtain ⟨hnext, hr'⟩ := hr.histNext_of_pos
      exact ⟨pos, hnext ▸ hr'⟩

theorem Represents.run (is : List Input) :
    ∃ pos', Represents (editor.run h is).1 (added lines is) pos' := by
  induction is generalizing h lines pos with
  | nil => exact ⟨pos, hr⟩
  | cons i is ih =>
    obtain ⟨pos', hr'⟩ := hr.step i
    cases i with
    | enter line | prev | next => exact ih hr'

theorem Represents.run_prev (n : Nat) : (editor.run h (List.replicate n .prev)).2 =
        (List.range n).map (fun i => if pos + i < reach lines then lines[pos + i]? else none) ∧
      Represents (editor.run h (List.replicate n .prev)).1 lines (min (pos + n) (reach lines)) := by
  refine editor.run_replicate (P := fun n h => Represents h lines (min (pos + n) (reach lines))) .prev
    (fun n h' hr' => ?_) (by rwa [Nat.add_zero, Nat.min_eq_left hr.pos_le]) n
  by_cases hlt : pos + n < reach lines
  · rw [Nat.min_eq_left hlt.le] at hr'
    obtain ⟨hprev, hr''⟩ := hr'.histPrev_of_lt hlt
    have hstep : editor.step h' .prev = _ := hprev
    rw [hstep, if_pos hlt, Nat.min_eq_left (show pos + (n + 1) ≤ reach lines by omega)]
    exact ⟨rfl, hr''⟩
  · rw [Nat.min_eq_right (Nat.not_lt.mp hlt)] at hr'
    have hstep : editor.step h' .prev = _ := hr'.histPrev_of_end rfl
    rw [hstep, if_neg hlt, Nat.min_eq_right (show reach lines ≤ pos + (n + 1) by omega)]
    exact ⟨rfl, hr'⟩

theorem Represents.run_next (n : Nat) : (editor.run h (List.replicate n .next)).2 =
        (List.range n).map (fun i => if i < pos then lineAt lines (pos - 1 - i) else none) ∧
      Represents (editor.run h (List.replicate n .next)).1 lines (pos - n) := by
  refine editor.run_replicate (P := fun n h => Represents h lines (pos - n)) .next
    (fun n h' hr' => ?_) hr n
  by_cases hlt : n < pos
  · rw [show pos - n = pos - 1 - n + 1 by omega] at hr'
    obtain ⟨hnext, hr''⟩ := hr'.histNext_of_pos
    have hstep : editor.step h' .next = _ := hnext
    rw [hstep, if_pos hlt, show pos - (n + 1) = pos - 1 - n by omega]
    exact ⟨rfl, hr''⟩
  · rw [show pos - n = 0 by omega] at hr'
    have hstep : editor.step h' .next = _ := hr'.histNext_of_zero
    rw [hstep, if_neg hlt, show pos - (n + 1) = 0 by omega]
    exact ⟨rfl, hr'⟩

end

def shown (h : Hist) : Line :=
  if h.histCur = h.histAddIdx then [] else h.histList h.histCur.toNat

theorem Represents.shown_eq (hr : Represents h lines pos) (hpos : 0 < reach lines) :
    some (shown h) = lineAt lines pos := by
  have hcur := hr.cur_nonneg hpos
  have haddIdx := hr.addIdx
  have hle := hr.pos_le
  cases pos with
  | zero => rw [shown, if_pos (by rw [hcur, haddIdx, Nat.sub_zero]), lineAt]
  | succ pos =>
    have hne : h.histCur ≠ h.histAddIdx := by
      rw [hcur, haddIdx]
      simp only [reach, histSlots] at hle ⊢
      omega
    rw [shown, if_neg hne, hr.lineAt_slot hle hcur]

theorem Represents.undo (hr : Represents h lines pos) (hprev : (histPrev h).2.isSome) :
    histNext (histPrev h).1 = (h, some (shown h)) := by
  rcases Nat.lt_or_eq_of_le hr.pos_le with hlt | heq
  · obtain ⟨hback, hr'⟩ := hr.histPrev_of_lt hlt
    obtain ⟨hnext, hr''⟩ := hr'.histNext_of_pos
    have hpos : 0 < reach lines := by omega
    have hcur' := hr''.cur_nonneg hpos
    rw [← hr.cur_nonneg hpos] at hcur'
    dsimp only at hcur'
    rw [hback, hnext, hr.shown_eq hpos, hcur']
  · rw [hr.histPrev_of_end heq] at hprev
    cases hprev

theorem added_append (lines : List Line) (is js : List Input) :
    added lines (is ++ js) = added (added lines is) js := by
  induction is generalizing lines with
  | nil => rfl
  | cons i is ih => cases i with
    | enter line | prev | next => exact ih _

theorem represents_start (is : List Input)
    (hlast : ∀ i, is.getLast? = some i → ∃ line, i = .enter line) :
    Represents (editor.run histInit is).1 (added [] is) 0 := by
  rcases eq_nil_or_concat' is with rfl | ⟨is, i, rfl⟩
  · exact represents_init
  · obtain ⟨line, rfl⟩ := hlast i getLast?_concat
    obtain ⟨pos, hr⟩ := represents_init.run is
    rw [Machine.run_append, added_append]
    exact hr.enterLine line

/-- From the end of a line the keys go back through the recent lines, as many as the ring can
show, then nowhere; forward through the same lines to an empty one, then nowhere; and wherever
the keys have led, a step forward undoes a step back. -/
theorem history_recalls (is : List Input)
    (hlast : ∀ i, is.getLast? = some i → ∃ line, i = .enter line) :
    let start := (editor.run histInit is).1
    let lines := added [] is
    let reachable := min lines.length (histSlots - 1)
    (∀ n, (editor.run start (replicate n .prev)).2 =
      (range n).map fun i => if i < reachable then lines[i]? else none) ∧
    (∀ k ≤ reachable, ∀ n,
      (editor.run (editor.run start (replicate k .prev)).1 (replicate n .next)).2 =
        (range n).map fun i =>
          if i + 1 < k then lines[k - 2 - i]? else if i + 1 = k then some [] else none) ∧
    ∀ moves, (∀ i ∈ moves, i = .prev ∨ i = .next) →
      let h := (editor.run start moves).1
      (histPrev h).2.isSome → histNext (histPrev h).1 = (h, some (shown h)) := by
  intro start lines reachable
  have hr : Represents start lines 0 := represents_start is hlast
  refine ⟨fun n => ?_, fun k hk n => ?_, fun moves _ => ?_⟩
  · rw [(hr.run_prev n).1]
    simp only [Nat.zero_add]
    rfl
  · have hr' := (hr.run_prev k).2
    rw [Nat.zero_add, Nat.min_eq_left (show k ≤ reach lines from hk)] at hr'
    rw [(hr'.run_next n).1]
    refine map_congr_left fun i _ => ?_
    rcases Nat.lt_trichotomy (i + 1) k with hlt | heq | hgt
    · rw [if_pos (by omega), if_pos hlt, show k - 1 - i = k - 2 - i + 1 by omega, lineAt]
    · rw [if_pos (by omega), if_neg (by omega), if_pos heq, show k - 1 - i = 0 by omega, lineAt]
    · rw [if_neg (by omega), if_neg (by omega), if_neg (by omega)]
  · intro h hprev
    obtain ⟨pos, hr'⟩ := hr.run moves
    exact hr'.undo hprev

/-- Twenty-five lines of one letter each, the last of them `y`. -/
theorem history_recalls_twentyFive :
    let lines := (range 25).map fun i => [UInt8.ofNat (97 + i)]
    let start := (editor.run histInit (lines.map .enter)).1
    (editor.run start (replicate 20 .prev)).2 =
      (range 20).map fun i => if i < 19 then some [UInt8.ofNat (121 - i)] else none := by
  intro lines start
  have h := (history_recalls (lines.map .enter)
    fun i hi => ⟨[121], (Option.some.inj hi).symm⟩).1 20
  exact h.trans (by decide +kernel)

end UBoot.Shell.History
