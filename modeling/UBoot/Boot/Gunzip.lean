import UBoot.Lib.ByteMemory
import UBoot.Lib.Checked

/-!
# Decompression of a gzip image

`gunzip` and `zunzip` of `lib/gunzip.c` over an `inflate`, called with `Z_FINISH`, of which
only its budgets are known. An access outside source or destination is a `Fault`.
-/

namespace UBoot.Boot.Gzip

open Checked ByteMemory

inductive Fault
  | read
  | write
  deriving DecidableEq

/-! ## The header -/

def headCrc : UInt8 := 2
def extraField : UInt8 := 4
def origName : UInt8 := 8
def comment : UInt8 := 0x10
def reserved : UInt8 := 0xe0
def deflated : UInt8 := 8

section
variable (src : Nat → UInt8) (len : Nat)

def readByte (i : Nat) : Except Fault UInt8 := if i < len then .ok (src i) else .error .read

/-- The loop over a string of which `n` bytes lie in the source. -/
def skipString : Nat → Nat → Except Fault Nat
  | 0, _ => .error .read
  | n + 1, i => if src i = 0 then .ok (i + 1) else skipString n (i + 1)

def skipExtra (flags : UInt8) : Except Fault Nat :=
  if flags &&& extraField ≠ 0 then do
    let lo ← readByte src len 10
    let hi ← readByte src len 11
    .ok (12 + lo.toNat + hi.toNat * 256)
  else .ok 10

def skipField (field flags : UInt8) (i : Nat) : Except Fault Nat :=
  if flags &&& field ≠ 0 then skipString src (len - i) i else .ok i

def skipHeader : Except Fault (Option Nat) := do
  let flags ← readByte src len 3
  let method ← readByte src len 2
  if method ≠ deflated ∨ flags &&& reserved ≠ 0 then .ok none
  else
    let i ← skipExtra src len flags
    let i ← skipField src len origName flags i
    let i ← skipField src len comment flags i
    .ok (some (if flags &&& headCrc ≠ 0 then i + 2 else i))

end

/-! ## inflate -/

def zStreamEnd : Int := 1
def zBufError : Int := -5

/-- What a call of `inflate` returns, and how far it moves its pointers. -/
structure Answer (σ : Type) where
  ret : Int
  consumed : Nat
  produced : List UInt8
  state : σ

/-- An `inflate` that keeps to the budgets of its stream. -/
structure Inflate where
  State : Type
  init : Option State
  call : State → (Nat → UInt8) → Nat → Nat → Answer State
  consumed_le : ∀ s input availIn availOut, (call s input availIn availOut).consumed ≤ availIn
  produced_le : ∀ s input availIn availOut,
    (call s input availIn availOut).produced.length ≤ availOut
  reads : ∀ s input input' availIn availOut, (∀ k < availIn, input k = input' k) →
    call s input availIn availOut = call s input' availIn availOut

def uInt (n : Int) : Nat := (n % 2 ^ 32).toNat

/-- The offsets of `next_in` in the source and of `next_out` in the
destination. -/
structure ZStream (σ : Type) where
  nextIn : Nat
  availIn : Nat
  nextOut : Nat
  availOut : Nat
  mem : Memory
  state : σ

section
variable (inflate : Inflate) (dst : Nat) (dstlen : Int) (src lenp : Nat)

/-- The return value, `*lenp` and the memory; `none` where the fuel is spent. -/
abbrev Outcome := Option (Except Fault (Int × Nat × Memory))

def zunzipLoop (stoponerr : Int) (offset : Nat) : Nat → ZStream inflate.State → Outcome
  | 0, _ => none
  | fuel + 1, s =>
    let answer := inflate.call s.state (fun k => s.mem (src + s.nextIn + k)) s.availIn s.availOut
    if lenp < s.nextIn + answer.consumed then some (.error .read)
    else if dstlen.toNat < s.nextOut + answer.produced.length then some (.error .write)
    else
      let mem := storeBytes (dst + s.nextOut) answer.produced s.mem
      let nextOut := s.nextOut + answer.produced.length
      if answer.ret ≠ zStreamEnd ∧ answer.ret ≠ zBufError ∧ stoponerr = 1 then
        some (.ok (-1, lenp, mem))
      else if answer.ret = zBufError then
        zunzipLoop stoponerr offset fuel
          { nextIn := s.nextIn + answer.consumed
            availIn := uInt (lenp - offset - nextOut)
            nextOut := nextOut
            availOut := uInt dstlen
            mem := mem
            state := answer.state }
      else some (.ok (0, nextOut, mem))

def zunzip (fuel : Nat) (stoponerr : Int) (offset : Nat) (mem : Memory) : Outcome :=
  match inflate.init with
  | none => some (.ok (-1, lenp, mem))
  | some state =>
    zunzipLoop inflate dst dstlen src lenp stoponerr offset fuel
      ⟨offset, uInt (lenp - offset), 0, uInt dstlen, mem, state⟩

def gunzip (fuel : Nat) (mem : Memory) : Outcome :=
  match skipHeader (fun i => mem (src + i)) lenp with
  | .error e => some (.error e)
  | .ok none => some (.ok (-1, lenp, mem))
  | .ok (some i) =>
    if lenp ≤ i then some (.ok (-1, lenp, mem))
    else zunzip inflate dst dstlen src lenp fuel 1 i mem

end

/-! ## Headers that lie in the source -/

/-- A string from `start` up to `stop`, if the header has the field. -/
def FieldEnd (src : Nat → UInt8) (present : Prop) (start stop : Nat) : Prop :=
  (¬ present → stop = start) ∧
    (present → start < stop ∧ src (stop - 1) = 0 ∧ ∀ k, start ≤ k → k < stop - 1 → src k ≠ 0)

def Accepted (src : Nat → UInt8) : Prop := src 2 = deflated ∧ src 3 &&& reserved = 0

abbrev Has (src : Nat → UInt8) (field : UInt8) : Prop := src 3 &&& field ≠ 0

def extraEnd (src : Nat → UInt8) : Nat :=
  if Has src extraField then 12 + (src 10).toNat + (src 11).toNat * 256 else 10

structure HeaderEnds (src : Nat → UInt8) (nameEnd commentEnd offset : Nat) : Prop where
  name : FieldEnd src (Has src origName) (extraEnd src) nameEnd
  comment : FieldEnd src (Has src comment) nameEnd commentEnd
  crc : offset = if Has src headCrc then commentEnd + 2 else commentEnd

structure HeaderInside (src : Nat → UInt8) (len : Nat) : Prop where
  flags : 4 ≤ len
  extra : Accepted src → Has src extraField → 12 ≤ len
  strings : Accepted src → ∃ nameEnd commentEnd offset, HeaderEnds src nameEnd commentEnd offset ∧
    (Has src origName → nameEnd ≤ len) ∧ (Has src comment → commentEnd ≤ len)

variable {src : Nat → UInt8} {len : Nat}

theorem FieldEnd.unique (h : FieldEnd src present start stop)
    (h' : FieldEnd src present start stop') : stop = stop' := by
  by_cases hp : present
  · obtain ⟨hlt, hz, hbefore⟩ := h.2 hp
    obtain ⟨hlt', hz', hbefore'⟩ := h'.2 hp
    by_contra hne
    obtain hless | hless := Nat.lt_or_gt_of_ne hne
    · exact hbefore' (stop - 1) (by omega) (by omega) hz
    · exact hbefore (stop' - 1) (by omega) (by omega) hz'
  · rw [h.1 hp, h'.1 hp]

theorem FieldEnd.step (h : src start ≠ 0) :
    FieldEnd src True (start + 1) stop ↔ FieldEnd src True start stop := by
  simp only [FieldEnd, not_true_eq_false, false_implies, true_and, true_implies]
  constructor
  · rintro ⟨hlt, hz, hbefore⟩
    refine ⟨by omega, hz, fun k hk hstop => ?_⟩
    obtain rfl | hne := eq_or_ne k start
    · exact h
    · exact hbefore k (by omega) hstop
  · rintro ⟨hlt, hz, hbefore⟩
    have hne : stop - 1 ≠ start := fun he => h (he ▸ hz)
    exact ⟨by omega, hz, fun k hk hstop => hbefore k (by omega) hstop⟩

theorem skipString_eq_ok :
    skipString src n i = .ok stop ↔ FieldEnd src True i stop ∧ stop ≤ i + n := by
  induction n generalizing i with
  | zero =>
    simp only [skipString, reduceCtorEq, false_iff]
    rintro ⟨h, hle⟩
    have := (h.2 trivial).1
    omega
  | succ n ih =>
    rw [skipString]
    split
    next hz =>
      have hend : FieldEnd src True i (i + 1) := ⟨by simp, fun _ => ⟨by omega, hz, by omega⟩⟩
      constructor
      · intro h
        cases h
        exact ⟨hend, by omega⟩
      · rintro ⟨h, -⟩
        rw [hend.unique h]
    next hz => rw [ih, FieldEnd.step hz, Nat.add_assoc, Nat.add_comm 1]

theorem skipField_eq_ok :
    skipField src len field (src 3) i = .ok stop ↔
      FieldEnd src (Has src field) i stop ∧ (Has src field → stop ≤ len) := by
  rw [skipField]
  by_cases h : Has src field
  · rw [if_pos h, skipString_eq_ok, show Has src field ↔ True from iff_true_intro h]
    constructor
    · rintro ⟨hend, hle⟩
      have := (hend.2 trivial).1
      exact ⟨hend, by omega⟩
    · rintro ⟨hend, hle⟩
      have := hle trivial
      exact ⟨hend, by omega⟩
  · rw [if_neg h]
    simp [FieldEnd, h, eq_comm]

theorem readByte_eq_ok : readByte src len i = .ok b ↔ i < len ∧ src i = b := by
  unfold readByte
  split <;> simp [*]

theorem skipExtra_eq_ok :
    skipExtra src len (src 3) = .ok i ↔ i = extraEnd src ∧ (Has src extraField → 12 ≤ len) := by
  unfold skipExtra extraEnd
  by_cases h : Has src extraField
  · rw [if_pos h, if_pos h]
    simp only [bind_eq_ok, readByte_eq_ok, Except.ok.injEq]
    constructor
    · rintro ⟨_, ⟨-, rfl⟩, _, ⟨hlen, rfl⟩, rfl⟩
      exact ⟨rfl, fun _ => hlen⟩
    · rintro ⟨rfl, hlen⟩
      have := hlen h
      exact ⟨_, ⟨by omega, rfl⟩, _, ⟨by omega, rfl⟩, rfl⟩
  · rw [if_neg h, if_neg h]
    simp [h, eq_comm]

theorem skipHeader_rejected (h : ¬ Accepted src) (r : Option Nat) :
    skipHeader src len = .ok r ↔ 4 ≤ len ∧ r = none := by
  have hrejected : src 2 ≠ deflated ∨ src 3 &&& reserved ≠ 0 := by
    rw [Accepted] at h
    tauto
  simp only [skipHeader, bind_eq_ok, readByte_eq_ok]
  constructor
  · rintro ⟨_, ⟨hlen, rfl⟩, _, ⟨-, rfl⟩, hr⟩
    rw [if_pos hrejected] at hr
    cases hr
    exact ⟨hlen, rfl⟩
  · rintro ⟨hlen, rfl⟩
    exact ⟨_, ⟨hlen, rfl⟩, _, ⟨by omega, rfl⟩, if_pos hrejected⟩

theorem skipHeader_accepted (h : Accepted src) (r : Option Nat) :
    skipHeader src len = .ok r ↔ 4 ≤ len ∧ (Has src extraField → 12 ≤ len) ∧
      ∃ nameEnd commentEnd offset, HeaderEnds src nameEnd commentEnd offset ∧
        (Has src origName → nameEnd ≤ len) ∧ (Has src comment → commentEnd ≤ len) ∧
        r = some offset := by
  have haccepted : ¬ (src 2 ≠ deflated ∨ src 3 &&& reserved ≠ 0) := by
    rw [Accepted] at h
    tauto
  simp only [skipHeader, bind_eq_ok, readByte_eq_ok]
  constructor
  · rintro ⟨_, ⟨hlen, rfl⟩, _, ⟨-, rfl⟩, hr⟩
    rw [if_neg haccepted] at hr
    simp only [bind_eq_ok, skipExtra_eq_ok, skipField_eq_ok] at hr
    obtain ⟨_, ⟨rfl, hextra⟩, nameEnd, ⟨hname, hn⟩, commentEnd, ⟨hcomment, hc⟩, hr⟩ := hr
    cases hr
    exact ⟨hlen, hextra, nameEnd, commentEnd, _, ⟨hname, hcomment, rfl⟩, hn, hc, rfl⟩
  · rintro ⟨hlen, hextra, nameEnd, commentEnd, offset, hends, hn, hc, rfl⟩
    refine ⟨_, ⟨hlen, rfl⟩, _, ⟨by omega, rfl⟩, ?_⟩
    rw [if_neg haccepted]
    simp only [bind_eq_ok, skipExtra_eq_ok, skipField_eq_ok]
    refine ⟨_, ⟨rfl, hextra⟩, _, ⟨hends.name, hn⟩, _, ⟨hends.comment, hc⟩, ?_⟩
    rw [hends.crc]

theorem headerInside_of_skipHeader (h : skipHeader src len = .ok r) : HeaderInside src len := by
  by_cases ha : Accepted src
  · obtain ⟨hlen, hextra, nameEnd, commentEnd, offset, hends, hn, hc, -⟩ :=
      (skipHeader_accepted ha r).mp h
    exact ⟨hlen, fun _ => hextra, fun _ => ⟨nameEnd, commentEnd, offset, hends, hn, hc⟩⟩
  · obtain ⟨hlen, -⟩ := (skipHeader_rejected ha r).mp h
    exact ⟨hlen, fun h => absurd h ha, fun h => absurd h ha⟩

theorem skipHeader_of_headerInside (h : HeaderInside src len) :
    ∃ r, skipHeader src len = .ok r := by
  by_cases ha : Accepted src
  · obtain ⟨nameEnd, commentEnd, offset, hends, hn, hc⟩ := h.strings ha
    exact ⟨some offset, (skipHeader_accepted ha _).mpr
      ⟨h.flags, h.extra ha, nameEnd, commentEnd, offset, hends, hn, hc, rfl⟩⟩
  · exact ⟨none, (skipHeader_rejected ha _).mpr ⟨h.flags, rfl⟩⟩

theorem HeaderEnds.unique
    (h : HeaderEnds src nameEnd commentEnd offset)
    (h' : HeaderEnds src nameEnd' commentEnd' offset') : offset = offset' := by
  obtain rfl := h.name.unique h'.name
  obtain rfl := h.comment.unique h'.comment
  rw [h.crc, h'.crc]

/-! ## Calls of inflate -/

/-- What `inflate` does when it is first called, with all the source behind the
header and all the destination. -/
def Inflate.firstCall (inflate : Inflate) (dstlen : Int) (src lenp : Nat) (mem : Memory)
    (offset : Nat) : Option (Int × Nat × List UInt8) :=
  inflate.init.map fun state =>
    let answer := inflate.call state (fun k => mem (src + offset + k)) (uInt (lenp - offset))
      (uInt dstlen)
    (answer.ret, answer.consumed, answer.produced)

/-- An `inflate` that makes no progress after its first call. -/
def Inflate.stalled (inflate : Inflate) : Inflate where
  State := Option inflate.State
  init := inflate.init.map some
  call
    | some s, input, availIn, availOut =>
      let answer := inflate.call s input availIn availOut
      ⟨answer.ret, answer.consumed, answer.produced, none⟩
    | none, _, _, _ => ⟨zBufError, 0, [], none⟩
  consumed_le
    | some s, input, availIn, availOut => inflate.consumed_le s input availIn availOut
    | none, _, _, _ => Nat.zero_le _
  produced_le
    | some s, input, availIn, availOut => inflate.produced_le s input availIn availOut
    | none, _, _, _ => Nat.zero_le _
  reads
    | some s, input, input', availIn, availOut => fun h => by
      simp [inflate.reads s input input' availIn availOut h]
    | none, _, _, _, _ => fun _ => rfl

theorem Inflate.stalled_firstCall (inflate : Inflate) (dstlen : Int) (src lenp : Nat)
    (mem : Memory) : inflate.stalled.firstCall dstlen src lenp mem =
      inflate.firstCall dstlen src lenp mem := by
  funext offset
  simp only [firstCall, stalled, Option.map_map]
  rfl

section
variable {inflate : Inflate} {dst : Nat} {dstlen : Int} {src lenp offset : Nat} {stoponerr : Int}

theorem zunzipLoop_stalled (fuel : Nat) (hs : s.state = (none : Option inflate.State))
    (r : Int × Nat × Memory) :
    zunzipLoop inflate.stalled dst dstlen src lenp stoponerr offset fuel s ≠ some (.ok r) := by
  induction fuel generalizing s with
  | zero => simp [zunzipLoop]
  | succ fuel ih =>
    have hcall : inflate.stalled.call s.state (fun k => s.mem (src + s.nextIn + k)) s.availIn
        s.availOut = ⟨zBufError, 0, [], none⟩ := by rw [hs]; rfl
    rw [zunzipLoop]
    simp only [hcall]
    split_ifs with hread hwrite herr
    · simp
    · simp
    · simp at herr
    · exact ih rfl

theorem zunzipLoop_of_ret_ne
    (hcall : inflate.call s.state (fun k => s.mem (src + s.nextIn + k)) s.availIn s.availOut =
      answer) (hin : s.nextIn + answer.consumed ≤ lenp)
    (hout : s.nextOut + answer.produced.length ≤ dstlen.toNat) (hret : answer.ret ≠ zBufError) :
    ∃ r, zunzipLoop inflate dst dstlen src lenp stoponerr offset (fuel + 1) s = some (.ok r) := by
  rw [zunzipLoop]
  simp only [hcall, not_lt.mpr hin, not_lt.mpr hout, hret, ↓reduceIte]
  split
  · exact ⟨_, rfl⟩
  · exact ⟨_, rfl⟩

def Settled (dstlen : Int) : Option (Int × Nat × List UInt8) → Prop
  | none => True
  | some (ret, _, produced) => ret ≠ zBufError ∧ (0 ≤ dstlen ∨ produced = [])

theorem uInt_le (h : 0 ≤ n) : (uInt n : Int) ≤ n := by
  unfold uInt
  omega

theorem produced_of_room (h : ¬ dstlen.toNat < 0 + produced.length) :
    0 ≤ dstlen ∨ produced = [] := by
  by_cases hpos : 0 ≤ dstlen
  · exact .inl hpos
  · refine .inr (List.length_eq_zero_iff.mp ?_)
    omega

theorem zunzip_of_settled (hlen : offset ≤ lenp)
    (h : Settled dstlen (inflate.firstCall dstlen src lenp mem offset)) :
    ∃ r, zunzip inflate dst dstlen src lenp 1 stoponerr offset mem = some (.ok r) := by
  unfold zunzip
  unfold Inflate.firstCall at h
  cases hinit : inflate.init with
  | none => exact ⟨_, rfl⟩
  | some state =>
    simp only [hinit, Option.map_some, Settled] at h
    have hin := inflate.consumed_le state (fun k => mem (src + offset + k)) (uInt (lenp - offset))
      (uInt dstlen)
    have hout := inflate.produced_le state (fun k => mem (src + offset + k)) (uInt (lenp - offset))
      (uInt dstlen)
    generalize hcall : inflate.call state (fun k => mem (src + offset + k)) (uInt (lenp - offset))
      (uInt dstlen) = answer at h hin hout
    have hsrc : (uInt (lenp - offset) : Int) ≤ lenp - offset := uInt_le (by omega)
    refine zunzipLoop_of_ret_ne hcall (show offset + answer.consumed ≤ lenp by omega) ?_ h.1
    obtain hpos | hnil := h.2
    · have hdst := uInt_le hpos
      show 0 + answer.produced.length ≤ dstlen.toNat
      omega
    · simp [hnil]

theorem settled_of_zunzip
    (h : zunzip inflate.stalled dst dstlen src lenp fuel stoponerr offset mem = some (.ok r)) :
    Settled dstlen (inflate.firstCall dstlen src lenp mem offset) := by
  unfold Inflate.firstCall
  cases hinit : inflate.init with
  | none => trivial
  | some state =>
    have hstart : inflate.stalled.init = some (some state) := by simp [Inflate.stalled, hinit]
    rw [zunzip, hstart] at h
    cases fuel with
    | zero => simp [zunzipLoop] at h
    | succ fuel =>
      simp only [Option.map_some, Settled]
      generalize hcall : inflate.call state (fun k => mem (src + offset + k))
        (uInt (lenp - offset)) (uInt dstlen) = answer
      have hstalled : inflate.stalled.call (some state) (fun k => mem (src + offset + k))
          (uInt (lenp - offset)) (uInt dstlen) =
            ⟨answer.ret, answer.consumed, answer.produced, none⟩ := by
        simp [Inflate.stalled, hcall]
      dsimp only at h
      rw [zunzipLoop] at h
      simp only [hstalled] at h
      split_ifs at h with hread hwrite herr hbuf
      · cases h
      · cases h
      · exact ⟨herr.2.1, produced_of_room hwrite⟩
      · exact absurd h (zunzipLoop_stalled fuel rfl r)
      · exact ⟨hbuf, produced_of_room hwrite⟩

end

/-- Whatever `inflate` does after its first call. -/
theorem gunzip_inBounds_iff (inflate : Inflate) (dst : Nat) (dstlen : Int) (src lenp : Nat)
    (mem : Memory) :
    (∀ later : Inflate,
      later.firstCall dstlen src lenp mem = inflate.firstCall dstlen src lenp mem →
      ∃ fuel r, gunzip later dst dstlen src lenp fuel mem = some (.ok r)) ↔
    HeaderInside (fun i => mem (src + i)) lenp ∧
      ∀ nameEnd commentEnd offset, Accepted (fun i => mem (src + i)) →
        HeaderEnds (fun i => mem (src + i)) nameEnd commentEnd offset → offset < lenp →
        Settled dstlen (inflate.firstCall dstlen src lenp mem offset) := by
  constructor
  · intro h
    obtain ⟨fuel, r, hr⟩ := h inflate.stalled (inflate.stalled_firstCall dstlen src lenp mem)
    rw [gunzip] at hr
    cases hheader : skipHeader (fun i => mem (src + i)) lenp with
    | error e => simp [hheader] at hr
    | ok header =>
      refine ⟨headerInside_of_skipHeader hheader, fun nameEnd commentEnd offset ha he hlt => ?_⟩
      obtain ⟨-, -, _, _, _, he', -, -, rfl⟩ := (skipHeader_accepted ha header).mp hheader
      obtain rfl := he.unique he'
      simp only [hheader, if_neg (not_le.mpr hlt)] at hr
      exact settled_of_zunzip hr
  · rintro ⟨hinside, hsettled⟩ later hfirst
    rw [← hfirst] at hsettled
    refine ⟨1, ?_⟩
    obtain ⟨header, hheader⟩ := skipHeader_of_headerInside hinside
    simp only [gunzip, hheader]
    cases header with
    | none => exact ⟨_, rfl⟩
    | some offset =>
      by_cases hlt : lenp ≤ offset
      · simp only [if_pos hlt]
        exact ⟨_, rfl⟩
      · simp only [if_neg hlt]
        have ha : Accepted (fun i => mem (src + i)) := by
          by_contra hn
          have := (skipHeader_rejected hn _).mp hheader
          simp at this
        obtain ⟨-, -, _, _, _, he, -, -, hoffset⟩ := (skipHeader_accepted ha _).mp hheader
        obtain rfl := Option.some.inj hoffset
        exact zunzip_of_settled (by omega) (hsettled _ _ _ ha he (by omega))

/-- An `inflate` for data that are stored as they are. -/
def copying : Inflate where
  State := Unit
  init := some ()
  call _ input availIn availOut :=
    ⟨zBufError, min availIn availOut, (List.range (min availIn availOut)).map input, ()⟩
  consumed_le _ _ _ _ := min_le_left _ _
  produced_le _ _ _ _ := by simp
  reads _ input input' availIn availOut h := by
    simp only [Answer.mk.injEq, List.map_inj_left, List.mem_range, true_and, and_true]
    exact fun k hk => h k (hk.trans_le (min_le_left _ _))

def plainHeader : Memory := fun a => [0x1f, 0x8b, 8].getD a 0

theorem gunzip_leaves_buffers :
    (∀ fuel, gunzip copying 100 2 0 3 fuel plainHeader = some (.error .read)) ∧
      ∀ fuel, gunzip copying 100 2 0 14 (fuel + 2) plainHeader = some (.error .write) :=
  ⟨fun _ => rfl, fun _ => rfl⟩

end UBoot.Boot.Gzip
