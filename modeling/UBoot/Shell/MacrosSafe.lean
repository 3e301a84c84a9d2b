import UBoot.Lib.ByteMemory
import UBoot.Lib.Loop
import UBoot.Shell.RunCommand

/-!
# The buffers of the macro expansion

`process_macros` once more, now with its two counters, its pointers and its arrays:
every read of the input, every byte written to the output and every byte of the name
are checked against the array. It stays inside and leaves the expansion with a NUL.
-/

namespace UBoot.Shell.MacrosSafe

open ByteMemory Checked List

inductive Fault where
  | input | output | envname | endless
  deriving DecidableEq

/-- The variables of `process_macros`; `input`, `output` and `varnameStart` are offsets. -/
structure Scan where
  input : Nat
  inputcnt : Nat
  output : Nat
  outputcnt : Nat
  state : Waiting
  prev : UInt8
  varnameStart : Nat
  mem : Memory

def readInput (text : List UInt8) (i : Nat) : Except Fault UInt8 :=
  if i ≤ text.length then .ok (text.getD i 0) else .error .input

def emit (cbsize : Nat) (s : Scan) (c : UInt8) : Except Fault Scan :=
  if s.output < cbsize then
    .ok { s with
      mem := Function.update s.mem s.output c
      output := s.output + 1
      outputcnt := s.outputcnt - 1 }
  else .error .output

def emitValue (cbsize : Nat) : Scan → List UInt8 → Except Fault Scan
  | s, [] => .ok s
  | s, c :: value => do
    if s.outputcnt = 0 then .ok s
    else emitValue cbsize (← emit cbsize s c) value

/-- Copies the name from `start` on to `envname`, with its NUL. -/
def copyName (cbsize : Nat) (text : List UInt8) (start : Nat) :
    Nat → Nat → List UInt8 → Except Fault (List UInt8)
  | 0, i, name => if i < cbsize then .ok name else .error .envname
  | envcnt + 1, i, name => do
    let c ← readInput text (start + i)
    if i < cbsize then copyName cbsize text start envcnt (i + 1) (name ++ [c])
    else .error .envname

/-- The next character, with one level of escape characters removed. At a lone escape character
at the end the loop is left. -/
def fetch (text : List UInt8) (s : Scan) : Except Fault (Option (UInt8 × Scan)) := do
  let c ← readInput text s.input
  let s := { s with input := s.input + 1, inputcnt := s.inputcnt - 1 }
  if s.state ≠ .quote ∧ c = backslash ∧ s.prev ≠ backslash then
    if s.inputcnt = 0 then .ok none
    else do
      let d ← readInput text s.input
      .ok (some (d, { s with input := s.input + 1, inputcnt := s.inputcnt - 1, prev := c }))
  else .ok (some (c, s))

variable (cbsize : Nat) (getenv : List UInt8 → Option (List UInt8)) (text : List UInt8)

def dispatch (s : Scan) (c : UInt8) : Except Fault Scan :=
  match s.state with
  | .dollar =>
    if c = apostrophe ∧ s.prev ≠ backslash then .ok { s with state := .quote }
    else if c = Shell.dollar ∧ s.prev ≠ backslash then .ok { s with state := .bracket }
    else emit cbsize s c
  | .bracket =>
    if c = 0x28 ∨ c = 0x7b then .ok { s with state := .closing, varnameStart := s.input }
    else do
      let s ← emit cbsize { s with state := .dollar } Shell.dollar
      if s.outputcnt = 0 then .ok s else emit cbsize s c
  | .closing =>
    if c = 0x29 ∨ c = 0x7d then do
      let name ← copyName cbsize text s.varnameStart (s.input - s.varnameStart - 1) 0 []
      emitValue cbsize { s with state := .dollar } ((getenv name).getD [])
    else .ok s
  | .quote =>
    if c = apostrophe ∧ s.prev ≠ backslash then .ok { s with state := .dollar } else emit cbsize s c

def scanStep (s : Scan) : Except Fault (Loop.Next Scan Scan) :=
  if s.inputcnt = 0 ∨ s.outputcnt = 0 then .ok (.stop s)
  else do
    match ← fetch text s with
    | none => .ok (.stop s)
    | some (c, s) =>
      let s ← dispatch cbsize getenv text s c
      .ok (.goOn { s with prev := c })

def terminate (s : Scan) : Except Fault Memory :=
  let last := if s.outputcnt = 0 then s.output - 1 else s.output
  if last < cbsize then .ok (Function.update s.mem last 0) else .error .output

/-- What `process_macros` leaves in the memory from `output` on. The loop has a round for each
character at most. -/
def processMacrosInto (mem : Memory) : Except Fault Memory := do
  let s ← Loop.run (scanStep cbsize getenv text) .endless (text.length + 1)
    ⟨0, text.length, 0, cbsize, .dollar, 0, 0, mem⟩
  terminate cbsize s

/-! ## One round -/

variable {cbsize getenv text} {old : Memory} {s : Scan} {m : Macros} {upto : Nat}

structure Holds (cbsize : Nat) (text : List UInt8) (old : Memory) (s : Scan) (m : Macros)
    (upto : Nat) : Prop where
  output : s.output = m.output.length
  outputcnt : s.outputcnt = m.outputcnt
  room : m.output.length + m.outputcnt = cbsize
  state : s.state = m.waiting
  prev : s.prev = m.prev
  mem : s.mem = storeBytes 0 m.output old
  varname : m.waiting = .closing →
    s.varnameStart ≤ upto ∧ m.varname = (text.drop s.varnameStart).take (upto - s.varnameStart)

theorem emit_holds (h : Holds cbsize text old s m upto) (hroom : m.outputcnt ≠ 0) (c : UInt8) :
    ∃ s', emit cbsize s c = .ok s' ∧ Holds cbsize text old s' (m.emit c) upto ∧
      s'.input = s.input ∧ s'.inputcnt = s.inputcnt := by
  have hlt : s.output < cbsize := by
    have := h.room
    rw [h.output]
    omega
  refine ⟨_, if_pos hlt, ⟨?_, ?_, ?_, h.state, h.prev, ?_, h.varname⟩, rfl, rfl⟩
  · simp [Macros.emit, h.output]
  · simp [Macros.emit, h.outputcnt]
  · have := h.room
    simp only [Macros.emit, length_append, length_singleton]
    omega
  · simp [Macros.emit, storeBytes_append, storeBytes, h.mem, h.output]

theorem emitAll_cons (m : Macros) (c : UInt8) (value : List UInt8) (hroom : m.outputcnt ≠ 0) :
    (m.emit c).emitAll value = m.emitAll (c :: value) := by
  obtain ⟨n, hn⟩ := Nat.exists_eq_succ_of_ne_zero hroom
  simp [Macros.emit, Macros.emitAll, hn, Nat.add_sub_add_right]

theorem emitAll_of_full (m : Macros) (value : List UInt8) (hroom : m.outputcnt = 0) :
    m.emitAll value = m := by
  cases m
  simp_all [Macros.emitAll]

theorem emitValue_holds (value : List UInt8) (h : Holds cbsize text old s m upto) :
    ∃ s', emitValue cbsize s value = .ok s' ∧ Holds cbsize text old s' (m.emitAll value) upto ∧
      s'.input = s.input ∧ s'.inputcnt = s.inputcnt := by
  induction value generalizing s m with
  | nil =>
    refine ⟨s, rfl, ?_, rfl, rfl⟩
    simpa [Macros.emitAll] using h
  | cons c value ih =>
    by_cases hroom : m.outputcnt = 0
    · refine ⟨s, ?_, ?_, rfl, rfl⟩
      · rw [emitValue, if_pos (h.outputcnt.trans hroom)]
      · rw [emitAll_of_full m _ hroom]
        exact h
    · obtain ⟨s₁, hemit, h₁, hinput₁, hcnt₁⟩ := emit_holds h hroom c
      obtain ⟨s₂, hrest, h₂, hinput₂, hcnt₂⟩ := ih h₁
      rw [emitAll_cons m c value hroom] at h₂
      refine ⟨s₂, ?_, h₂, hinput₂.trans hinput₁, hcnt₂.trans hcnt₁⟩
      rw [emitValue, if_neg (h.outputcnt ▸ hroom), hemit]
      exact hrest

theorem copyName_eq (hread : start + i + envcnt ≤ text.length)
    (hname : i + envcnt < cbsize) : copyName cbsize text start envcnt i name =
      .ok (name ++ (text.drop (start + i)).take envcnt) := by
  induction envcnt generalizing i name with
  | zero =>
    rw [copyName, if_pos (by omega), take_zero, append_nil]
  | succ envcnt ih =>
    have hlt : start + i < text.length := by omega
    rw [copyName, readInput, if_pos hlt.le, ok_bind, if_pos (by omega), ih (by omega) (by omega)]
    rw [drop_eq_getElem_cons hlt, take_succ_cons, append_assoc,
      getD_eq_getElem _ _ hlt]
    rfl

theorem Holds.next (h : Holds cbsize text old s m upto) (hname : m.waiting ≠ .closing) (c : UInt8)
    (upto' : Nat) : Holds cbsize text old { s with prev := c } { m with prev := c } upto' :=
  ⟨h.output, h.outputcnt, h.room, h.state, rfl, h.mem, fun hw => absurd hw hname⟩

theorem Holds.wait (h : Holds cbsize text old s m upto) (hw : w ≠ .closing) :
    Holds cbsize text old { s with state := w } { m with waiting := w } upto :=
  ⟨h.output, h.outputcnt, h.room, rfl, h.prev, h.mem, fun hclosing => absurd hclosing hw⟩

theorem emitOne_eq (s : Scan) (c : UInt8) :
    (if s.outputcnt = 0 then .ok s else emit cbsize s c) = emitValue cbsize s [c] := by
  rw [emitValue]
  split
  · rfl
  · cases emit cbsize s c <;> rfl

theorem dispatch_holds (h : Holds cbsize text old s m upto) (hroom : m.outputcnt ≠ 0)
    (hinput : s.input = upto + 1) (hc : text[upto]? = some c) (hcb : text.length < cbsize) :
    ∃ s', dispatch cbsize getenv text s c = .ok s' ∧
      Holds cbsize text old { s' with prev := c } (Macros.step getenv m c) (upto + 1) ∧
      s'.input = s.input ∧ s'.inputcnt = s.inputcnt := by
  have hlt : upto < text.length := (List.getElem?_eq_some_iff.mp hc).1
  have hprev := h.prev
  have hstate := h.state
  unfold dispatch Macros.step
  cases hwaiting : m.waiting with
  | dollar =>
    have hname : m.waiting ≠ .closing := by simp [hwaiting]
    simp only [hstate, hwaiting]
    by_cases hquote : c = apostrophe ∧ m.prev ≠ backslash
    · rw [if_pos hquote, if_pos (hprev ▸ hquote)]
      exact ⟨_, rfl, (h.wait Waiting.noConfusion).next Waiting.noConfusion c _, rfl, rfl⟩
    · rw [if_neg hquote, if_neg (hprev ▸ hquote)]
      by_cases hdollar : c = Shell.dollar ∧ m.prev ≠ backslash
      · rw [if_pos hdollar, if_pos (hprev ▸ hdollar)]
        exact ⟨_, rfl, (h.wait Waiting.noConfusion).next Waiting.noConfusion c _, rfl, rfl⟩
      · rw [if_neg hdollar, if_neg (hprev ▸ hdollar)]
        obtain ⟨s', hemit, h', hinput', hcnt'⟩ := emit_holds h hroom c
        exact ⟨s', hemit, h'.next hname c _, hinput', hcnt'⟩
  | quote =>
    have hname : m.waiting ≠ .closing := by simp [hwaiting]
    simp only [hstate, hwaiting]
    by_cases hquote : c = apostrophe ∧ m.prev ≠ backslash
    · rw [if_pos hquote, if_pos (hprev ▸ hquote)]
      exact ⟨_, rfl, (h.wait Waiting.noConfusion).next Waiting.noConfusion c _, rfl, rfl⟩
    · rw [if_neg hquote, if_neg (hprev ▸ hquote)]
      obtain ⟨s', hemit, h', hinput', hcnt'⟩ := emit_holds h hroom c
      exact ⟨s', hemit, h'.next hname c _, hinput', hcnt'⟩
  | bracket =>
    have hwait := h.wait (w := .dollar) Waiting.noConfusion
    simp only [hstate, hwaiting]
    split
    · refine ⟨_, rfl, ⟨h.output, h.outputcnt, h.room, rfl, rfl, h.mem, fun _ => ?_⟩, rfl, rfl⟩
      simp [hinput]
    · obtain ⟨s₁, hemit, h₁, hinput₁, hcnt₁⟩ := emit_holds hwait hroom Shell.dollar
      obtain ⟨s₂, hrest, h₂, hinput₂, hcnt₂⟩ := emitValue_holds [c] h₁
      rw [emitAll_cons { m with waiting := .dollar } _ _ hroom] at h₂
      refine ⟨s₂, ?_, h₂.next Waiting.noConfusion c _, hinput₂.trans hinput₁, hcnt₂.trans hcnt₁⟩
      rw [hemit, ok_bind, emitOne_eq, hrest]
  | closing =>
    have hwait := h.wait (w := .dollar) Waiting.noConfusion
    obtain ⟨hstart, hvarname⟩ := h.varname hwaiting
    simp only [hstate, hwaiting]
    split
    · have hcopy : copyName cbsize text s.varnameStart (s.input - s.varnameStart - 1) 0 [] =
          .ok m.varname := by
        rw [copyName_eq (by omega) (by omega), List.nil_append, Nat.add_zero, hvarname, hinput,
          show upto + 1 - s.varnameStart - 1 = upto - s.varnameStart by omega]
      obtain ⟨s', hvalue, h', hinput', hcnt'⟩ :=
        emitValue_holds ((getenv m.varname).getD []) hwait
      refine ⟨s', ?_, h'.next Waiting.noConfusion c _, hinput', hcnt'⟩
      rw [hcopy, ok_bind, hvalue]
    · refine ⟨s, rfl, ⟨h.output, h.outputcnt, h.room, hstate.trans hwaiting, rfl, h.mem,
        fun _ => ⟨Nat.le_succ_of_le hstart, ?_⟩⟩, rfl, rfl⟩
      dsimp only
      rw [hvarname, show upto + 1 - s.varnameStart = upto - s.varnameStart + 1 by omega,
        List.take_add_one, List.getElem?_drop, Nat.add_sub_cancel' hstart, hc]
      rfl

/-! ## The loop -/

theorem readInput_of_drop (h : text.drop i = c :: rest) :
    text[i]? = some c ∧ readInput text i = .ok c ∧ text.drop (i + 1) = rest := by
  have hi : i < text.length := by
    by_contra hge
    rw [drop_eq_nil_of_le (Nat.not_lt.mp hge)] at h
    cases h
  rw [drop_eq_getElem_cons hi] at h
  injection h with hhead htail
  refine ⟨?_, ?_, htail⟩
  · rw [getElem?_eq_getElem hi, hhead]
  · rw [readInput, if_pos hi.le, getD_eq_getElem _ _ hi, hhead]

theorem Holds.escape (h : Holds cbsize text old s m upto) (hc : text[upto]? = some c) :
    Holds cbsize text old { s with prev := c } { m with prev := c, varname := m.varname ++ [c] }
      (upto + 1) := by
  refine ⟨h.output, h.outputcnt, h.room, h.state, rfl, h.mem, fun hw => ?_⟩
  obtain ⟨hstart, hvarname⟩ := h.varname hw
  refine ⟨Nat.le_succ_of_le hstart, ?_⟩
  dsimp only
  rw [hvarname, show upto + 1 - s.varnameStart = upto - s.varnameStart + 1 by omega,
    take_add_one, getElem?_drop, Nat.add_sub_cancel' hstart, hc]
  rfl

theorem Holds.moved (h : Holds cbsize text old s m upto) (input inputcnt : Nat) :
    Holds cbsize text old { s with input := input, inputcnt := inputcnt } m upto :=
  ⟨h.output, h.outputcnt, h.room, h.state, h.prev, h.mem, h.varname⟩

theorem scan_holds (hcb : text.length < cbsize) (fuel : Nat) {rest : List UInt8}
    (h : Holds cbsize text old s m s.input) (hrest : text.drop s.input = rest)
    (hcnt : s.inputcnt = rest.length) (hfuel : rest.length < fuel) :
    ∃ s' upto', Loop.run (scanStep cbsize getenv text) .endless fuel s = .ok s' ∧
      Holds cbsize text old s' (Macros.loop getenv m rest) upto' := by
  have hround {s : Scan} {m : Macros} {upto : Nat} {c : UInt8} (h : Holds cbsize text old s m upto)
      (hroom : m.outputcnt ≠ 0) (hinput : s.input = upto + 1) (hc : text[upto]? = some c) :=
    @dispatch_holds cbsize getenv text old s m upto c h hroom hinput hc hcb
  induction fuel generalizing s m rest with
  | zero => omega
  | succ fuel ih =>
    rw [Loop.run]
    cases rest with
    | nil =>
      rw [scanStep, if_pos (.inl hcnt)]
      exact ⟨s, s.input, rfl, h⟩
    | cons c rest =>
      rw [Macros.loop.eq_def]
      dsimp only
      obtain ⟨hc, hread, hrest'⟩ := readInput_of_drop hrest
      by_cases hroom : m.outputcnt = 0
      · rw [scanStep, if_pos (.inr (h.outputcnt.trans hroom)), if_pos hroom]
        exact ⟨s, s.input, rfl, h⟩
      · have hgo : ¬ (s.inputcnt = 0 ∨ s.outputcnt = 0) := by
          rw [h.outputcnt, hcnt]
          simp [hroom]
        rw [scanStep, if_neg hgo, if_neg hroom, fetch, hread, ok_bind]
        dsimp only
        by_cases hescape : m.waiting ≠ .quote ∧ c = backslash ∧ m.prev ≠ backslash
        · rw [if_pos hescape, if_pos (by rwa [h.state, h.prev])]
          cases rest with
          | nil =>
            rw [if_pos (by simp [hcnt])]
            exact ⟨s, s.input, rfl, h⟩
          | cons d rest =>
            obtain ⟨hd, hread', hrest''⟩ := readInput_of_drop hrest'
            rw [if_neg (by simp [hcnt]), hread', ok_bind]
            have hnext := (h.escape hc).moved (s.input + 1 + 1) (s.inputcnt - 1 - 1)
            obtain ⟨s', hdispatch, h', hinput', hcnt'⟩ := hround hnext hroom rfl hd
            rw [← show s'.input = s.input + 1 + 1 from hinput'] at h' hrest''
            obtain ⟨s'', upto', hrun, h''⟩ :=
              @ih { s' with prev := d } _ rest h' hrest'' (hcnt'.trans (by simp [hcnt])) (by
                rw [length_cons, length_cons] at hfuel
                omega)
            refine ⟨s'', upto', ?_, h''⟩
            simp only [ok_bind, hdispatch]
            exact hrun
        · rw [if_neg hescape, if_neg (by rwa [h.state, h.prev])]
          have hnext := h.moved (s.input + 1) (s.inputcnt - 1)
          obtain ⟨s', hdispatch, h', hinput', hcnt'⟩ := hround hnext hroom rfl hc
          rw [← show s'.input = s.input + 1 from hinput'] at h' hrest'
          obtain ⟨s'', upto', hrun, h''⟩ :=
            @ih { s' with prev := c } _ rest h' hrest' (hcnt'.trans (by simp [hcnt])) (by
              rw [length_cons] at hfuel
              omega)
          refine ⟨s'', upto', ?_, h''⟩
          simp only [ok_bind, hdispatch]
          exact hrun

theorem terminate_holds (h : Holds cbsize text old s m upto) (hcb : 0 < cbsize) :
    terminate cbsize s = .ok (storeBytes 0
      ((if m.outputcnt ≠ 0 then m.output else m.output.dropLast) ++ [0]) old) := by
  have hroom := h.room
  rw [terminate, h.outputcnt, h.output, h.mem]
  by_cases hfull : m.outputcnt = 0
  · have hne : m.output ≠ [] := by
      intro hnil
      rw [hnil] at hroom
      simp at hroom
      omega
    rw [if_pos hfull, if_pos (by omega), if_neg (not_not.mpr hfull)]
    conv_lhs => rw [← dropLast_append_getLast hne]
    simp [storeBytes_append, storeBytes]
  · rw [if_neg hfull, if_pos (by omega), if_pos hfull, storeBytes_append]
    simp [storeBytes]

theorem processMacrosInto_eq (old : Memory) (hcb : text.length < cbsize) :
    processMacrosInto cbsize getenv text old =
      .ok (storeBytes 0 (processMacros cbsize getenv text ++ [0]) old) ∧
    (processMacros cbsize getenv text).length < cbsize := by
  have hstart : Holds cbsize text old ⟨0, text.length, 0, cbsize, .dollar, 0, 0, old⟩
      ⟨.dollar, 0, [], [], cbsize⟩ 0 :=
    ⟨rfl, rfl, Nat.zero_add _, rfl, rfl, rfl, Waiting.noConfusion⟩
  obtain ⟨s, upto, hrun, h⟩ := @scan_holds cbsize getenv text old _ _ hcb (text.length + 1) _
    hstart drop_zero rfl (Nat.lt_succ_self _)
  refine ⟨?_, ?_⟩
  · rw [processMacrosInto, hrun, ok_bind, terminate_holds h (by omega), processMacros]
  · have hroom := h.room
    rw [processMacros]
    split
    · omega
    · rw [length_dropLast]
      omega

/-- For a text shorter than the buffers the expansion ends, every byte read or written lies in its
array, and the output holds a text with its NUL. -/
theorem processMacrosInto_safe (cbsize : Nat) (getenv : List UInt8 → Option (List UInt8))
    (text : List UInt8) (old : Memory) (hcb : text.length < cbsize) :
    ∃ mem, processMacrosInto cbsize getenv text old = .ok mem ∧
      (∃ k < cbsize, mem k = 0 ∧ ∀ i < k, mem i = (processMacros cbsize getenv text).getD i 0) ∧
      ∀ i, cbsize ≤ i → mem i = old i := by
  obtain ⟨heq, hlen⟩ := @processMacrosInto_eq cbsize getenv text old hcb
  refine ⟨_, heq, ⟨_, hlen, ?_, fun i hi => ?_⟩, fun i hi => ?_⟩
  · simp [storeBytes_apply]
  · rw [storeBytes_apply, if_pos (by simp; omega), Nat.sub_zero, getD_append _ _ _ _ hi]
  · rw [storeBytes_apply, if_neg]
    simp
    omega

/-- A variable whose value does not fit. -/
theorem processMacrosInto_safe_long :
    let getenv := fun name => if name = [97] then some (replicate 100 (98 : UInt8)) else none
    ∃ mem, processMacrosInto 8 getenv [36, 123, 97, 125] (fun _ => 255) = .ok mem ∧
      (∃ k < 8, mem k = 0 ∧ ∀ i < k, mem i = (processMacros 8 getenv [36, 123, 97, 125]).getD i 0) ∧
      ∀ i, 8 ≤ i → mem i = 255 :=
  processMacrosInto_safe 8 _ [36, 123, 97, 125] (fun _ => 255) (by decide)

end UBoot.Shell.MacrosSafe
