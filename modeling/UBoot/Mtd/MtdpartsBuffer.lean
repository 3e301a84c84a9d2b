import UBoot.Mtd.MtdpartsRoundTrip

/-!
# The buffer of `generate_mtdparts`

The text is written piece by piece, and each piece is compared with the space left.
But the nine characters `mtdparts=` that it begins with are not counted, so that up to
nine bytes behind the buffer are written, also by a call that then returns 1.
-/

namespace UBoot.Mtdparts

open List

/-! ## Pieces -/

def pieceIf (c : Bool) (s : List UInt8) : List (List UInt8) := if c then [s] else []

def partPieces (numParts : UInt16) (prevPart : Option PartInfo) (partCnt : Nat) (part : PartInfo) :
    List (List UInt8) :=
  [memsizeFormat part.size] ++
    pieceIf (hasGap prevPart part) ('@'.toUInt8 :: memsizeFormat part.offset) ++
    pieceIf (!part.autoName) ('('.toUInt8 :: (part.name ++ [')'.toUInt8])) ++
    pieceIf (part.maskFlags != 0) ['r'.toUInt8, 'o'.toUInt8] ++
    pieceIf (partCnt < numParts.toNat) [','.toUInt8]

def partsPieces (numParts : UInt16) : Option PartInfo → Nat → List PartInfo → List (List UInt8)
  | _, _, [] => []
  | prevPart, partCnt, part :: rest =>
    partPieces numParts prevPart (partCnt + 1) part ++
      partsPieces numParts (some part) (partCnt + 1) rest

def pieces : List MtdDevice → List (List UInt8)
  | [] => []
  | dev :: rest =>
    [dev.id.mtdId ++ [':'.toUInt8]] ++ partsPieces dev.numParts none 0 dev.parts ++
      pieceIf (rest ≠ []) [';'.toUInt8] ++ pieces rest

def fill : List (List UInt8) → Buf → List UInt8 × Bool
  | [], b => (b.1, true)
  | s :: ss, b =>
    match put s b with
    | none => (b.1, false)
    | some b => fill ss b

/-- What `generate_mtdparts` returns, and all the bytes it writes from `buf` on. -/
def generateMtdpartsInto (buflen : UInt32) (devices : List MtdDevice) : Int × List UInt8 :=
  if devices = [] then (0, [0])
  else
    match fill (pieces devices) (mtdpartsEq, (buflen - 1).toNat) with
    | (text, true) => (0, text ++ [0])
    -- the zero that `sprintf` puts behind `mtdparts=` is written over by the first piece
    | (text, false) => (1, if text = mtdpartsEq then text ++ [0] else text)

def putPieces (ss : List (List UInt8)) (b : Buf) : Option Buf := ss.foldlM (fun b s => put s b) b

theorem putPieces_append (ss ts : List (List UInt8)) (b : Buf) :
    putPieces (ss ++ ts) b = (putPieces ss b).bind (putPieces ts) := by
  rw [putPieces, foldlM_append]
  rfl

theorem putPieces_pieceIf (c : Bool) (s : List UInt8) (b : Buf) :
    putPieces (pieceIf c s) b = putIf c s b := by
  cases c with
  | false => rfl
  | true => simp [putPieces, pieceIf, putIf]

theorem putPieces_singleton (s : List UInt8) (b : Buf) : putPieces [s] b = put s b := by
  simp [putPieces]

theorem putPart_eq (numParts : UInt16) (prevPart : Option PartInfo) (partCnt : Nat)
    (part : PartInfo) (b : Buf) :
    putPart numParts prevPart partCnt part b =
      putPieces (partPieces numParts prevPart partCnt part) b := by
  simp only [partPieces, putPieces_append, putPieces_pieceIf, putPieces_singleton, putPart,
    Option.bind_eq_bind, Option.bind_assoc]

theorem putParts_eq (numParts : UInt16) (prevPart : Option PartInfo) (partCnt : Nat)
    (parts : List PartInfo) (b : Buf) :
    putParts numParts prevPart partCnt parts b =
      putPieces (partsPieces numParts prevPart partCnt parts) b := by
  induction parts generalizing prevPart partCnt b with
  | nil => rfl
  | cons part rest ih =>
    rw [putParts, partsPieces, putPieces_append, putPart_eq]
    exact congrArg _ (funext fun b => ih _ _ b)

theorem putDevices_eq (devices : List MtdDevice) (b : Buf) :
    putDevices devices b = putPieces (pieces devices) b := by
  induction devices generalizing b with
  | nil => rfl
  | cons dev rest ih =>
    simp only [putDevices, pieces, putPieces_append, putPieces_pieceIf, putPieces_singleton,
      putParts_eq, ih, Option.bind_eq_bind, Option.bind_assoc]

theorem fill_eq (ss : List (List UInt8)) (b : Buf) :
    (fill ss b).2 = (putPieces ss b).isSome ∧
      ∀ b', putPieces ss b = some b' → (fill ss b).1 = b'.1 := by
  induction ss generalizing b with
  | nil => exact ⟨rfl, fun b' h => by cases h; rfl⟩
  | cons s ss ih =>
    have hcons : putPieces (s :: ss) b = (put s b).bind (putPieces ss) := rfl
    rw [hcons, fill]
    cases put s b with
    | none => exact ⟨rfl, fun b' h => nomatch h⟩
    | some b => exact ih b

theorem fill_spec (ss : List (List UInt8)) (b : Buf) :
    ∃ ps rest, ss = ps ++ rest ∧ ps.flatten.length ≤ b.2 ∧
      fill ss b = (b.1 ++ ps.flatten, rest.isEmpty) ∧
      ∀ s ∈ rest.head?, b.2 < ps.flatten.length + s.length := by
  induction ss generalizing b with
  | nil => exact ⟨[], [], rfl, Nat.zero_le _, by simp [fill], by simp⟩
  | cons s ss ih =>
    rw [fill, put]
    by_cases hfull : b.2 < s.length
    · rw [if_pos hfull]
      refine ⟨[], s :: ss, rfl, Nat.zero_le _, by simp, ?_⟩
      rintro _ ⟨⟩
      simpa using hfull
    · rw [if_neg hfull]
      obtain ⟨ps, rest, rfl, hlen, hfill, hrest⟩ := ih (b.1 ++ s, b.2 - s.length)
      refine ⟨s :: ps, rest, rfl, ?_, ?_, fun s' hs' => ?_⟩
      · rw [flatten_cons, length_append]
        dsimp only at hlen
        omega
      · dsimp only
        rw [hfill, flatten_cons, append_assoc]
      · have hs'' := hrest s' hs'
        dsimp only at hs''
        rw [flatten_cons, length_append]
        omega

theorem generateMtdpartsInto_of_length_le (h : (pieces devices).flatten.length ≤ (buflen - 1).toNat)
    :
    (generateMtdpartsInto buflen devices).1 = 0 := by
  obtain ⟨ps, rest, hpieces, -, hfill, hrest⟩ :=
    fill_spec (pieces devices) (mtdpartsEq, (buflen - 1).toNat)
  rw [generateMtdpartsInto, hfill]
  cases rest with
  | nil => split <;> rfl
  | cons s rest =>
    have hover := hrest s rfl
    rw [hpieces, flatten_append, flatten_cons, length_append, length_append] at h
    dsimp only at hover
    omega

def fullText (devices : List MtdDevice) : List UInt8 :=
  if devices = [] then [] else mtdpartsEq ++ (pieces devices).flatten

/-- Some first pieces for which there is space behind `mtdparts=`, and for the final zero if they
are all. -/
def HasSpace (buflen : Nat) (devices : List MtdDevice) (ps : List (List UInt8)) : Prop :=
  ps.flatten.length + 9 ≤ buflen ∧
    (ps = pieces devices → ps.flatten.length + 10 ≤ buflen)

theorem isPrefix_of_short (hps' : ps' <+: ps ++ s :: rest)
    (hover : n < ps.flatten.length + s.length) (hshort : ps'.flatten.length ≤ n) : ps' <+: ps := by
  have hsnoc : ps ++ [s] <+: ps ++ s :: rest := ⟨rest, by simp⟩
  have hlong (h : ps ++ [s] <+: ps') : False := by
    have hle := h.flatten.length_le
    simp only [flatten_append, flatten_singleton, length_append] at hle
    omega
  rcases prefix_or_prefix_of_prefix hps' hsnoc with h | h
  · rcases prefix_concat_iff.mp h with rfl | h
    · exact (hlong (prefix_refl _)).elim
    · exact h
  · exact (hlong h).elim

theorem length_le_withZero (text : List UInt8) :
    text.length ≤ (if text = mtdpartsEq then text ++ [0] else text).length := by
  split <;> simp

/-- The bytes keep to the buffer, nothing is cut, and what does not fit is refused, just if all the
first pieces that are written have space. -/
theorem generateMtdpartsInto_fits_iff (buflen : UInt32) (devices : List MtdDevice)
    (hbuf : 10 ≤ buflen.toNat) :
    let ret := (generateMtdpartsInto buflen devices).1
    let bytes := (generateMtdpartsInto buflen devices).2
    (bytes.length ≤ buflen.toNat ∧ (ret = 0 → bytes = fullText devices ++ [0]) ∧
      (buflen.toNat < (fullText devices).length + 1 → ret ≠ 0)) ↔
      ∀ ps, ps <+: pieces devices → ps.flatten.length < buflen.toNat →
        HasSpace buflen.toNat devices ps := by
  have hspace : (buflen - 1).toNat = buflen.toNat - 1 := by
    rw [UInt32.toNat_sub_of_le]
    · rfl
    · rw [UInt32.le_iff_toNat_le]
      exact Nat.le_trans (by decide) hbuf
  unfold generateMtdpartsInto fullText
  by_cases hdevices : devices = []
  · subst hdevices
    simp [pieces, HasSpace]
    omega
  · obtain ⟨ps, rest, hpieces, hlen, hfill, hrest⟩ :=
      fill_spec (pieces devices) (mtdpartsEq, (buflen - 1).toNat)
    have hnine : mtdpartsEq.length = 9 := rfl
    simp only [if_neg hdevices, hfill]
    rw [hspace] at hlen hrest
    cases rest with
    | nil =>
      rw [append_nil] at hpieces
      simp only [isEmpty_nil, length_append, hnine, hpieces, length_singleton]
      constructor
      · rintro ⟨hfits, -, -⟩ ps' hps' -
        have hle := hps'.flatten.length_le
        exact ⟨by omega, fun _ => by omega⟩
      · intro hspaces
        obtain ⟨-, hall⟩ := hspaces ps (prefix_refl ps) (by omega)
        have hfits := hall hpieces.symm
        exact ⟨by omega, fun _ => trivial, fun h => absurd h (by omega)⟩
    | cons s rest =>
      have hover := hrest s rfl
      dsimp only at hlen hover
      simp only [isEmpty_cons]
      constructor
      · rintro ⟨hfits, -, -⟩ ps' hps' hshort
        -- no more pieces are tried than those that were written
        rw [hpieces] at hps'
        have hps := isPrefix_of_short hps' hover (by omega)
        have hle := hps.flatten.length_le
        refine ⟨?_, fun hall => ?_⟩
        · have htext := length_le_withZero (mtdpartsEq ++ ps.flatten)
          rw [length_append, hnine] at htext
          omega
        · rw [hall, hpieces] at hps
          exact absurd hps.length_le (by simp)
      · intro hspaces
        obtain ⟨hfits, -⟩ := hspaces ps (hpieces ▸ prefix_append ps _) (by omega)
        refine ⟨?_, fun h => absurd h (by decide), fun _ => by decide⟩
        split
        case isTrue h => rw [h, length_append, hnine]; exact hbuf
        case isFalse => rw [length_append, hnine]; omega

theorem generateMtdpartsInto_fits_sample :
    10 ≤ (512 : UInt32).toNat ∧
      (generateMtdpartsInto 512 [sampleDev]).2.length ≤ 512 ∧
      (generateMtdpartsInto 512 [sampleDev]).1 = 0 ∧
      (generateMtdpartsInto 512 [sampleDev]).2 = fullText [sampleDev] ++ [0] := by
  have hret : (generateMtdpartsInto 512 [sampleDev]).1 = 0 := by decide +kernel
  have htotal : (pieces [sampleDev]).flatten.length = 31 := by decide +kernel
  obtain ⟨hfits, hwhole, -⟩ :=
    (generateMtdpartsInto_fits_iff 512 [sampleDev] (by decide)).mpr fun ps hps _ => by
      have hle := hps.flatten.length_le
      have hbuflen : (512 : UInt32).toNat = 512 := rfl
      exact ⟨by omega, fun _ => by omega⟩
  exact ⟨by decide, hfits, hret, hwhole hret⟩

/-- The text and its zero take 41 bytes; a buffer of 32 is overrun and 0 is returned. One of 28
is overrun before the name that does not fit is refused. -/
theorem generateMtdpartsInto_overruns :
    (fullText [sampleDev]).length + 1 = 41 ∧
      (generateMtdpartsInto 32 [sampleDev]).1 = 0 ∧
      (generateMtdpartsInto 32 [sampleDev]).2.length = 41 ∧
      (generateMtdpartsInto 28 [sampleDev]).1 = 1 ∧
      (generateMtdpartsInto 28 [sampleDev]).2.length = 34 := by
  decide +kernel

end UBoot.Mtdparts
