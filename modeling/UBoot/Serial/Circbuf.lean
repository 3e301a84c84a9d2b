import UBoot.Lib.Machine

/-!
# Circular buffers

`buf_init`, `buf_pop` and `buf_push` of `lib/circbuf.c` are a queue that keeps the last
bytes pushed. The pointers `top`, `tail` and `p` count from `data` on, so that `end` is
`totalsize`. An access outside `data` has no outcome.
-/

namespace UBoot.Serial

open List

structure Circbuf where
  size : Nat
  totalsize : Nat
  data : Nat → UInt8
  top : Nat
  tail : Nat

def bufInit (data : Nat → UInt8) (size : Nat) : Circbuf := ⟨0, size, data, 0, 0⟩

def Circbuf.advance (buf : Circbuf) (p : Nat) : Nat := if p + 1 = buf.totalsize then 0 else p + 1

def popLoop (buf : Circbuf) : Nat → Nat → Option (List UInt8 × Nat)
  | 0, p => some ([], p)
  | n + 1, p =>
    if p < buf.totalsize then
      (popLoop buf n (buf.advance p)).map fun (dest, p') => (buf.data p :: dest, p')
    else none

/-- The value returned and the bytes stored at `dest`. -/
def bufPop (buf : Circbuf) (len : Nat) : Option (Circbuf × Nat × List UInt8) :=
  let len := if len > buf.size then buf.size else len
  (popLoop buf len buf.top).map fun (dest, p) =>
    ({ buf with top := p, size := buf.size - len }, len, dest)

def pushByte (buf : Circbuf) (p : Nat) (c : UInt8) : Option (Circbuf × Nat) :=
  if p < buf.totalsize then
    let buf := { buf with data := Function.update buf.data p c }
    some (if buf.size < buf.totalsize then { buf with size := buf.size + 1 }
      else { buf with top := buf.advance buf.top }, buf.advance p)
  else none

def pushLoop : List UInt8 → Circbuf → Nat → Option (Circbuf × Nat)
  | [], buf, p => some (buf, p)
  | c :: src, buf, p => (pushByte buf p c).bind fun (buf', p') => pushLoop src buf' p'

def bufPush (buf : Circbuf) (src : List UInt8) : Option (Circbuf × Nat × List UInt8) :=
  (pushLoop src buf buf.tail).map fun (buf', p) => ({ buf' with tail := p }, src.length, [])

inductive Call
  | push (src : List UInt8)
  | pop (len : Nat)

def circbufMachine : Machine (Option Circbuf) Call (Option (Nat × List UInt8)) where
  step s call :=
    match s.bind fun buf => match call with
      | .push src => bufPush buf src
      | .pop len => bufPop buf len with
    | some (buf, answer) => (some buf, some answer)
    | none => (none, none)

def queueMachine (c : Nat) : Machine (List UInt8) Call (Option (Nat × List UInt8)) where
  step q
    | .push src => ((q ++ src).rtake c, some (src.length, []))
    | .pop len => (q.drop len, some (min len q.length, q.take len))

/-! ## What a buffer holds -/

structure Circbuf.Sound (buf : Circbuf) : Prop where
  top_lt : buf.top < buf.totalsize
  size_le : buf.size ≤ buf.totalsize
  tail_eq : buf.tail = (buf.top + buf.size) % buf.totalsize

def Circbuf.contents (buf : Circbuf) : List UInt8 :=
  (List.range buf.size).map fun i => buf.data ((buf.top + i) % buf.totalsize)

variable {buf : Circbuf} {p len : Nat}

theorem Circbuf.Sound.tail_lt (h : buf.Sound) : buf.tail < buf.totalsize :=
  h.tail_eq ▸ Nat.mod_lt _ (Nat.zero_lt_of_lt h.top_lt)

theorem advance_eq (h : p < buf.totalsize) : buf.advance p = (p + 1) % buf.totalsize := by
  unfold Circbuf.advance
  split
  · next heq => rw [heq, Nat.mod_self]
  · rw [Nat.mod_eq_of_lt (by omega)]

theorem rtake_rtake_append (l xs : List UInt8) (c : Nat) :
    (l.rtake c ++ xs).rtake c = (l ++ xs).rtake c := by
  simp only [rtake, drop_append, drop_drop, length_append, length_drop]
  congr 2 <;> omega

theorem popLoop_eq (buf : Circbuf) (n : Nat) (hp : p < buf.totalsize) :
    popLoop buf n p =
      some ((List.range n).map fun i => buf.data ((p + i) % buf.totalsize),
        (p + n) % buf.totalsize) := by
  induction n generalizing p with
  | zero => rw [popLoop, Nat.add_zero, Nat.mod_eq_of_lt hp, range_zero, map_nil]
  | succ n ih =>
    have hnext (i : Nat) : ((p + 1) % buf.totalsize + i) % buf.totalsize =
        (p + (i + 1)) % buf.totalsize := by
      rw [Nat.mod_add_mod, Nat.add_right_comm, Nat.add_assoc]
    rw [popLoop, if_pos hp, advance_eq hp, ih (Nat.mod_lt _ (Nat.zero_lt_of_lt hp))]
    simp [hnext, range_succ_eq_map, Function.comp_def, Nat.mod_eq_of_lt hp]

theorem length_contents (buf : Circbuf) : buf.contents.length = buf.size := by
  simp [Circbuf.contents]

def Circbuf.without (buf : Circbuf) (len : Nat) : Circbuf :=
  { buf with top := (buf.top + len) % buf.totalsize, size := buf.size - len }

theorem Circbuf.Sound.without (h : buf.Sound) (hlen : len ≤ buf.size) :
    (buf.without len).Sound ∧ (buf.without len).contents = buf.contents.drop len := by
  refine ⟨⟨Nat.mod_lt _ (Nat.zero_lt_of_lt h.top_lt), (Nat.sub_le _ _).trans h.size_le, ?_⟩, ?_⟩
  · rw [Circbuf.without, Nat.mod_add_mod, Nat.add_assoc, Nat.add_sub_cancel' hlen]
    exact h.tail_eq
  · refine ext_getElem (by simp [length_contents, Circbuf.without]) fun i _ _ => ?_
    simp [Circbuf.contents, Circbuf.without, Nat.add_assoc]

theorem bufPop_spec (h : buf.Sound) (len : Nat) :
    bufPop buf len = some (buf.without (min len buf.size), min len buf.size,
      buf.contents.take len) := by
  have hmin : (if len > buf.size then buf.size else len) = min len buf.size := by
    split <;> omega
  rw [bufPop, hmin, popLoop_eq buf _ h.top_lt, Circbuf.contents, ← map_take, take_range]
  rfl

theorem mod_ne_mod {top c i j : Nat} (hij : i < j) (hj : j < i + c) :
    (top + i) % c ≠ (top + j) % c := by
  intro h
  have hdvd := (Nat.modEq_iff_dvd' (by omega)).mp h
  exact absurd (Nat.le_of_dvd (by omega) hdvd) (by omega)

def Circbuf.with (buf : Circbuf) (x : UInt8) : Circbuf :=
  { buf with
    data := Function.update buf.data buf.tail x
    size := buf.size + 1
    tail := buf.advance buf.tail }

theorem Circbuf.Sound.with (h : buf.Sound) (hroom : buf.size < buf.totalsize) (x : UInt8) :
    (buf.with x).Sound ∧ (buf.with x).contents = buf.contents ++ [x] := by
  refine ⟨⟨h.top_lt, hroom, ?_⟩, ?_⟩
  · rw [Circbuf.with, advance_eq h.tail_lt, h.tail_eq, Nat.mod_add_mod, Nat.add_assoc]
  · have hkept (i : Nat) (hi : i ∈ range buf.size) :
        Function.update buf.data buf.tail x ((buf.top + i) % buf.totalsize) =
          buf.data ((buf.top + i) % buf.totalsize) := by
      have hlt := mem_range.mp hi
      exact Function.update_of_ne (h.tail_eq ▸ mod_ne_mod hlt (by omega)) _ _
    simp [Circbuf.contents, Circbuf.with, range_succ, map_congr_left hkept, ← h.tail_eq]

theorem pushByte_spec (h : Circbuf.Sound { buf with tail := p }) (x : UInt8) :
    ∃ buf', pushByte buf p x = some (buf', buf.advance p) ∧
      Circbuf.Sound { buf' with tail := buf.advance p } ∧ buf'.totalsize = buf.totalsize ∧
      buf'.contents = (buf.contents ++ [x]).rtake buf.totalsize := by
  refine ⟨_, if_pos h.tail_lt, ?_⟩
  dsimp only
  by_cases hroom : buf.size < buf.totalsize
  · rw [if_pos hroom]
    obtain ⟨hsound, hcontents⟩ := h.with hroom x
    refine ⟨hsound, rfl, hcontents.trans ?_⟩
    rw [rtake, Nat.sub_eq_zero_of_le, drop_zero]
    · rfl
    · rw [length_append, length_contents]
      exact hroom
  · have hfull : buf.size = buf.totalsize := Nat.le_antisymm h.size_le (Nat.le_of_not_lt hroom)
    have hone : 1 ≤ buf.size := hfull ▸ Nat.zero_lt_of_lt h.top_lt
    obtain ⟨hsound, hcontents⟩ := h.without hone
    obtain ⟨hsound', hcontents'⟩ := hsound.with (hfull ▸ Nat.sub_lt hone Nat.one_pos) x
    have hsize : buf.size - 1 + 1 = buf.size := Nat.sub_add_cancel hone
    have htop : (buf.top + 1) % buf.totalsize = buf.advance buf.top := (advance_eq h.top_lt).symm
    simp only [Circbuf.with, Circbuf.without, hsize, htop] at hsound' hcontents'
    have hdrop : (buf.contents ++ [x]).rtake buf.totalsize = buf.contents.drop 1 ++ [x] := by
      rw [rtake, length_append, length_contents, hfull, length_singleton,
        Nat.add_sub_cancel_left, drop_append_of_le_length (by rwa [length_contents])]
    rw [if_neg hroom, hdrop]
    refine ⟨hsound', rfl, hcontents'.trans ?_⟩
    rw [← htop]
    exact congrArg (· ++ [x]) hcontents

theorem pushLoop_spec (src : List UInt8) (h : Circbuf.Sound { buf with tail := p }) :
    ∃ buf' p', pushLoop src buf p = some (buf', p') ∧ Circbuf.Sound { buf' with tail := p' } ∧
      buf'.totalsize = buf.totalsize ∧
      buf'.contents = (buf.contents ++ src).rtake buf.totalsize := by
  induction src generalizing buf p with
  | nil =>
    refine ⟨buf, p, rfl, h, rfl, ?_⟩
    have hle : buf.contents.length ≤ buf.totalsize := (length_contents buf).trans_le h.size_le
    rw [append_nil, rtake, Nat.sub_eq_zero_of_le hle, drop_zero]
  | cons x src ih =>
    obtain ⟨buf₁, hbyte, hsound₁, htotal₁, hcontents₁⟩ := pushByte_spec h x
    obtain ⟨buf₂, p₂, hloop, hsound₂, htotal₂, hcontents₂⟩ := ih hsound₁
    refine ⟨buf₂, p₂, ?_, hsound₂, htotal₂.trans htotal₁, ?_⟩
    · rw [pushLoop, hbyte]
      exact hloop
    · rw [hcontents₂, htotal₁, hcontents₁, rtake_rtake_append, append_assoc]
      rfl

/-! ## Runs -/

def Refines (c : Nat) (s : Option Circbuf) (q : List UInt8) : Prop :=
  ∃ buf, s = some buf ∧ buf.Sound ∧ buf.totalsize = c ∧ buf.contents = q

theorem circbufMachine_step (call : Call) (h : Refines c s q) :
    Refines c (circbufMachine.step s call).1 ((queueMachine c).step q call).1 ∧
      (circbufMachine.step s call).2 = ((queueMachine c).step q call).2 := by
  obtain ⟨buf, rfl, hsound, rfl, rfl⟩ := h
  cases call with
  | push src =>
    obtain ⟨buf', p, hloop, hsound', htotal, hcontents⟩ := @pushLoop_spec buf buf.tail src hsound
    simp only [circbufMachine, queueMachine, Option.bind_some, bufPush, hloop, Option.map_some]
    exact ⟨⟨_, rfl, hsound', htotal, hcontents⟩, trivial⟩
  | pop len =>
    obtain ⟨hsound', hcontents⟩ := hsound.without (Nat.min_le_right len buf.size)
    simp only [circbufMachine, queueMachine, Option.bind_some, bufPop_spec hsound, length_contents]
    refine ⟨⟨_, rfl, hsound', rfl, hcontents.trans ?_⟩, trivial⟩
    exact drop_eq_drop_iff.mpr (by simp [length_contents])

theorem circbuf_refines_queue (data : Nat → UInt8) {c : Nat} (hc : 0 < c) (calls : List Call) :
    ∃ buf, circbufMachine.run (some (bufInit data c)) calls =
        (some buf, ((queueMachine c).run [] calls).2) ∧
      buf.size = ((queueMachine c).run [] calls).1.length ∧ buf.size ≤ c := by
  have hinit : Refines c (some (bufInit data c)) [] :=
    ⟨_, rfl, ⟨hc, Nat.zero_le c, (Nat.zero_mod c).symm⟩, rfl, rfl⟩
  have hall (s : Option Circbuf) : circbufMachine.Meets (fun _ _ => True) s calls := by
    induction calls generalizing s with
    | nil => trivial
    | cons call calls ih => exact ⟨trivial, ih _⟩
  obtain ⟨⟨buf, hbuf, hsound, htotal, hcontents⟩, hanswers⟩ :=
    Machine.simulation (fun _ _ call h _ => circbufMachine_step call h) hinit (hall _)
  refine ⟨buf, Prod.ext hbuf hanswers, ?_, htotal ▸ hsound.size_le⟩
  rw [← hcontents, length_contents]

theorem circbuf_refines_queue_two :
    0 < 2 ∧ ((queueMachine 2).run [] [.push [1, 2, 3], .pop 1, .push [4, 5], .pop 9]).2 =
        [some (3, []), some (1, [2]), some (2, []), some (2, [4, 5])] ∧
      ∃ buf, circbufMachine.run (some (bufInit (fun _ => 0) 2))
          [.push [1, 2, 3], .pop 1, .push [4, 5], .pop 9] =
        (some buf, [some (3, []), some (1, [2]), some (2, []), some (2, [4, 5])]) := by
  refine ⟨by decide, by decide, ?_⟩
  obtain ⟨buf, hrun, -⟩ := circbuf_refines_queue (fun _ => 0) (c := 2) (by decide)
    [.push [1, 2, 3], .pop 1, .push [4, 5], .pop 9]
  exact ⟨buf, hrun⟩

end UBoot.Serial
