import UBoot.Boot.Pxe

/-!
# Tokens of PXE files

The lexer against a description of its tokens: a token is read in bounds exactly
if it is there, and every token takes at least a byte of its line.
-/

namespace UBoot.Boot.Pxe

open Checked List

/-! ## What a token is -/

structure LineEnd (c c' : Cursor) : Prop where
  line : ∃ line, c = line ++ c' ∧ ∀ b ∈ line, endsLine b = false
  stop : ∃ b rest, c' = b :: rest ∧ endsLine b

def Blanks (s : List UInt8) : Prop := ∀ b ∈ s, isblank b

inductive Gap : List UInt8 → Prop
  | blanks {blanks : List UInt8} (h : Blanks blanks) : Gap blanks
  | comment {blanks comment : List UInt8} (h : Blanks blanks)
      (hc : ∀ b ∈ comment, endsLine b = false) : Gap (blanks ++ chHash :: comment)

def Solid (b : UInt8) : Prop := isblank b = false ∧ b ≠ chHash ∧ endsLine b = false

inductive TokenAt (c : Cursor) (rest : Cursor) : LexState → Token → Prop
  | eol {state : LexState} {gap : List UInt8} (hgap : Gap gap) (h : c = gap ++ chNewline :: rest) :
      TokenAt c rest state .eol
  | eof {state : LexState} {gap : List UInt8} (hgap : Gap gap) (h : c = gap ++ 0 :: rest) :
      TokenAt c rest state .eof
  | literal {blanks s : List UInt8} {b : UInt8} (hblanks : Blanks blanks)
      (h : c = blanks ++ b :: (s ++ rest)) (hb : Solid b) (hs : ∀ a ∈ s, endsLine a = false)
      (hend : ∃ a ∈ rest.head?, endsLine a) : TokenAt c rest .sliteral (.string (b :: s))
  | word {blanks w : List UInt8} (hblanks : Blanks blanks) (h : c = blanks ++ (w ++ rest))
      (hb : ∃ b ∈ (w ++ rest).head?, Solid b) (hw : ∀ a ∈ w, a ≠ 0 ∧ isspace a = false)
      (hend : ∃ a ∈ rest.head?, a = 0 ∨ isspace a) :
      TokenAt c rest .keyword (getKeyword (w.map tolower))

/-! ## Scans -/

variable {c rest : Cursor} {t : Token} {state : LexState}

theorem scan_append (hs : ∀ a ∈ s, ends a = false) (hb : ends b) :
    scan ends (s ++ b :: rest) = .ok (s, b :: rest) := by
  induction s with
  | nil => simp [scan, hb]
  | cons a s ih =>
    rw [cons_append, scan, if_neg (by simp [hs a mem_cons_self]),
      ih fun a ha => hs a (mem_cons_of_mem _ ha)]
    rfl

theorem scan_eq_ok : scan ends c = .ok (s, rest) ↔
      c = s ++ rest ∧ (∀ b ∈ s, ends b = false) ∧ ∃ b ∈ rest.head?, ends b := by
  constructor
  · intro h
    induction c generalizing s with
    | nil => cases h
    | cons b c ih =>
      rw [scan] at h
      split at h
      next hb =>
        cases h
        exact ⟨rfl, by simp, b, rfl, hb⟩
      next hb =>
        obtain ⟨⟨s', rest'⟩, hscan, heq⟩ := map_eq_ok.mp h
        cases heq
        obtain ⟨rfl, hs, hend⟩ := ih hscan
        refine ⟨rfl, ?_, hend⟩
        simpa using ⟨by simpa using hb, hs⟩
  · rintro ⟨rfl, hs, b, hb, hend⟩
    obtain ⟨b', rest, rfl⟩ : ∃ b' rest', rest = b' :: rest' := by
      cases rest with
      | nil => simp at hb
      | cons b' rest => exact ⟨b', rest, rfl⟩
    cases hb
    exact scan_append hs hend

theorem eolOrEof_eq_ok : eolOrEof c = .ok c' ↔ LineEnd c c' := by
  simp only [eolOrEof, map_eq_ok, Prod.exists, scan_eq_ok]
  constructor
  · rintro ⟨line, rest, ⟨h, hline, b, hb, hend⟩, rfl⟩
    refine ⟨⟨line, h, hline⟩, b, rest.tail, ?_, hend⟩
    exact eq_cons_of_mem_head? hb
  · rintro ⟨⟨line, h, hline⟩, b, rest, rfl, hend⟩
    exact ⟨line, _, ⟨h, hline, b, rfl, hend⟩, rfl⟩

theorem skipBlanks_eq_ok : skipBlanks c = .ok c' ↔
      (∃ blanks, Blanks blanks ∧ c = blanks ++ c') ∧ ∃ b ∈ c'.head?, isblank b = false := by
  simp only [skipBlanks, map_eq_ok, Prod.exists, scan_eq_ok, Bool.not_eq_false', Bool.not_eq_true']
  constructor
  · rintro ⟨blanks, rest, ⟨h, hblanks, hend⟩, rfl⟩
    exact ⟨⟨blanks, hblanks, h⟩, hend⟩
  · rintro ⟨⟨blanks, hblanks, h⟩, hend⟩
    exact ⟨blanks, c', ⟨h, hblanks, hend⟩, rfl⟩

theorem strlen_eq_ok : strlen c = .ok n ↔ ∃ s rest, c = s ++ 0 :: rest ∧ 0 ∉ s ∧ s.length = n := by
  simp only [strlen, map_eq_ok, Prod.exists, scan_eq_ok, beq_iff_eq, beq_eq_false_iff_ne]
  constructor
  · rintro ⟨s, rest, ⟨h, hs, b, hb, rfl⟩, hn⟩
    exact ⟨s, rest.tail, by rw [h, ← eq_cons_of_mem_head? hb], fun h0 => hs 0 h0 rfl, hn⟩
  · rintro ⟨s, rest, h, hs, hn⟩
    exact ⟨s, 0 :: rest, ⟨h, fun b hb h0 => hs (h0 ▸ hb), 0, rfl, rfl⟩, hn⟩

/-! ## The lexer -/

theorem getString_line (hb : endsLine b = false) :
    getString chNewline false (b :: c) = .ok (s, rest) ↔
      ∃ s', s = b :: s' ∧ c = s' ++ rest ∧ (∀ a ∈ s', endsLine a = false) ∧
        ∃ a ∈ rest.head?, endsLine a := by
  have hends : endsString chNewline = endsLine := by
    funext a
    simp [endsString, endsLine, chNewline, chSpace]
  simp only [getString, map_eq_ok, Prod.exists, scan_eq_ok, hends, Bool.false_eq_true, if_false,
    Prod.mk.injEq]
  constructor
  · rintro ⟨s, rest, ⟨h, hs, hend⟩, rfl, rfl⟩
    cases s with
    | nil =>
      rw [nil_append] at h
      subst h
      simp [hb] at hend
    | cons a s' =>
      cases h
      exact ⟨s', rfl, rfl, fun a ha => hs a (mem_cons_of_mem _ ha), hend⟩
  · rintro ⟨s', rfl, rfl, hs, hend⟩
    exact ⟨_, _, ⟨rfl, by simpa using ⟨hb, hs⟩, hend⟩, rfl, rfl⟩

theorem getString_word : getString chSpace true c = .ok (s, rest) ↔
      ∃ w, s = w.map tolower ∧ c = w ++ rest ∧ (∀ a ∈ w, a ≠ 0 ∧ isspace a = false) ∧
        ∃ a ∈ rest.head?, a = 0 ∨ isspace a := by
  have hends (a : UInt8) : endsString chSpace a = (a == 0 || isspace a) := by
    rw [endsString, beq_self_eq_true, Bool.true_and, Bool.or_assoc]
    by_cases ha : a = chSpace
    · simp [ha, isspace]
    · rw [beq_eq_false_iff_ne.mpr ha, Bool.or_false]
  simp only [getString, map_eq_ok, Prod.exists, scan_eq_ok, hends, Bool.or_eq_false_iff,
    Bool.or_eq_true, beq_eq_false_iff_ne, beq_iff_eq, if_true, Prod.mk.injEq]
  constructor
  · rintro ⟨w, rest, ⟨h, hw, hend⟩, rfl, rfl⟩
    exact ⟨w, rfl, h, hw, hend⟩
  · rintro ⟨w, rfl, h, hw, hend⟩
    exact ⟨w, rest, ⟨h, hw, hend⟩, rfl, rfl⟩

theorem endsLine_iff : endsLine b ↔ b = 0 ∨ b = chNewline := by
  simp [endsLine]

theorem not_isblank_of_endsLine (h : endsLine b) : isblank b = false := by
  obtain rfl | rfl := endsLine_iff.mp h <;> decide

theorem not_hash_of_endsLine (h : endsLine b) : b ≠ chHash := by
  obtain rfl | rfl := endsLine_iff.mp h <;> decide

theorem skipComment_of_ne (h : b ≠ chHash) : skipComment (b :: c) = .ok (b :: c) :=
  if_neg (by simpa using h)

theorem getToken_gap (h : Gap gap) (hb : endsLine b) :
    getToken state (gap ++ b :: rest) = tokenHere state (b :: rest) := by
  cases h with
  | blanks hblanks =>
    have hskip : skipBlanks (gap ++ b :: rest) = .ok (b :: rest) :=
      skipBlanks_eq_ok.mpr ⟨⟨gap, hblanks, rfl⟩, b, rfl, not_isblank_of_endsLine hb⟩
    rw [getToken, hskip]
    simp [bind, Except.bind, skipComment_of_ne (not_hash_of_endsLine hb)]
  | @comment blanks comment hblanks hcomment =>
    have hskip : skipBlanks (blanks ++ chHash :: comment ++ b :: rest) =
        .ok (chHash :: comment ++ b :: rest) :=
      skipBlanks_eq_ok.mpr ⟨⟨blanks, hblanks, by simp⟩, chHash, rfl, by decide⟩
    have hline : eolOrEof (chHash :: comment ++ b :: rest) = .ok (b :: rest) :=
      eolOrEof_eq_ok.mpr ⟨⟨chHash :: comment, rfl, by simpa using ⟨by decide, hcomment⟩⟩,
        b, rest, rfl, hb⟩
    rw [getToken, hskip]
    simp only [bind, Except.bind, skipComment, cons_append, head?_cons, if_true]
    rw [← cons_append, hline]

theorem getToken_solid (h : Blanks blanks) (hb : Solid b) :
    getToken state (blanks ++ b :: rest) = tokenHere state (b :: rest) := by
  have hskip : skipBlanks (blanks ++ b :: rest) = .ok (b :: rest) :=
    skipBlanks_eq_ok.mpr ⟨⟨blanks, h, rfl⟩, b, rfl, hb.1⟩
  rw [getToken, hskip]
  simp [bind, Except.bind, skipComment_of_ne hb.2.1]

theorem getToken_cases (h : getToken state c = .ok (t, rest)) :
    ∃ gap b c', c = gap ++ b :: c' ∧ tokenHere state (b :: c') = .ok (t, rest) ∧
      ((Gap gap ∧ endsLine b) ∨ (Blanks gap ∧ Solid b)) := by
  obtain ⟨c₁, hskip, hrest⟩ := bind_eq_ok.mp h
  obtain ⟨c₂, hcomment, hhere⟩ := bind_eq_ok.mp hrest
  obtain ⟨⟨blanks, hblanks, rfl⟩, b, hb, hsolid⟩ := skipBlanks_eq_ok.mp hskip
  obtain ⟨c₁, rfl⟩ : ∃ c', c₁ = b :: c' := ⟨_, eq_cons_of_mem_head? hb⟩
  by_cases hhash : b = chHash
  · subst hhash
    rw [skipComment, if_pos (head?_cons ..)] at hcomment
    obtain ⟨⟨line, hline, hbefore⟩, d, c₃, rfl, hend⟩ := eolOrEof_eq_ok.mp hcomment
    cases line with
    | nil =>
      cases hline
      exact absurd hend (by decide)
    | cons a line =>
      cases hline
      refine ⟨blanks ++ chHash :: line, d, c₃, by simp, hhere, .inl ⟨.comment hblanks ?_, hend⟩⟩
      exact fun b hb => hbefore b (mem_cons_of_mem _ hb)
  · rw [skipComment_of_ne hhash] at hcomment
    cases hcomment
    by_cases hend : endsLine b
    · exact ⟨blanks, b, c₁, rfl, hhere, .inl ⟨.blanks hblanks, hend⟩⟩
    · exact ⟨blanks, b, c₁, rfl, hhere, .inr ⟨hblanks, hsolid, hhash, by simpa using hend⟩⟩

theorem tokenHere_solid (hb : Solid b) : tokenHere state (b :: c) =
      match state with
      | .sliteral => (getString chNewline false (b :: c)).map fun r => (.string r.1, r.2)
      | .keyword => (getString chSpace true (b :: c)).map fun r => (getKeyword r.1, r.2) := by
  have hb0 : b ≠ 0 := fun h => absurd hb.2.2 (by rw [h]; decide)
  have hbn : b ≠ chNewline := fun h => absurd hb.2.2 (by rw [h]; decide)
  cases state <;> simp only [tokenHere, if_neg hbn, if_neg hb0]

theorem getToken_eq_ok : getToken state c = .ok (t, rest) ↔ TokenAt c rest state t := by
  constructor
  · intro h
    obtain ⟨gap, b, c', rfl, h, ⟨hgap, hend⟩ | ⟨hblanks, hsolid⟩⟩ := getToken_cases h
    · obtain rfl | rfl := endsLine_iff.mp hend
      · cases h
        exact .eof hgap rfl
      · cases h
        exact .eol hgap rfl
    · rw [tokenHere_solid hsolid] at h
      cases state with
      | sliteral =>
        obtain ⟨⟨s, rest'⟩, hs, heq⟩ := map_eq_ok.mp h
        cases heq
        obtain ⟨s', rfl, rfl, hs', hend⟩ := (getString_line hsolid.2.2).mp hs
        exact .literal hblanks rfl hsolid hs' hend
      | keyword =>
        obtain ⟨⟨s, rest'⟩, hs, heq⟩ := map_eq_ok.mp h
        cases heq
        obtain ⟨w, rfl, hw, hbefore, hend⟩ := getString_word.mp hs
        exact .word hblanks (by rw [hw]) ⟨b, by rw [← hw]; rfl, hsolid⟩ hbefore hend
  · intro h
    cases h with
    | eol hgap h =>
      rw [h, getToken_gap hgap (by decide)]
      rfl
    | eof hgap h =>
      rw [h, getToken_gap hgap (by decide)]
      rfl
    | literal hblanks h hsolid hs hend =>
      rw [h, getToken_solid hblanks hsolid, tokenHere_solid hsolid]
      exact map_eq_ok.mpr ⟨_, (getString_line hsolid.2.2).mpr ⟨_, rfl, rfl, hs, hend⟩, rfl⟩
    | word hblanks h hb hw hend =>
      obtain ⟨b, hb, hsolid⟩ := hb
      have hhead := eq_cons_of_mem_head? hb
      rw [h, hhead, getToken_solid hblanks hsolid, tokenHere_solid hsolid, ← hhead]
      exact map_eq_ok.mpr ⟨_, getString_word.mpr ⟨_, rfl, rfl, hw, hend⟩, rfl⟩

/-! ## Progress -/

theorem LineEnd.length_le (h : LineEnd c c') : c'.length ≤ c.length := by
  obtain ⟨line, rfl, -⟩ := h.line
  simp

theorem TokenAt.length_le (h : TokenAt c rest state t) : rest.length ≤ c.length := by
  cases h with
  | eol _ h | eof _ h | literal _ h | word _ h =>
    rw [h]
    simp
    try omega

theorem TokenAt.length_lt (h : TokenAt c rest state t)
    (ht : state = .keyword → ∀ s, t ≠ .string s) : rest.length < c.length := by
  cases h with
  | eol _ h | eof _ h | literal _ h =>
    rw [h]
    simp
    try omega
  | @word blanks w _ h hb hw hend =>
    have hne : w ≠ [] := by
      rintro rfl
      exact ht rfl [] rfl
    have hpos := length_pos_of_ne_nil hne
    simp [h]
    omega

theorem TokenAt.lineEnd_lt (h : TokenAt c rest .keyword t) (hl : LineEnd rest c') :
    c'.length < c.length := by
  have hle := hl.length_le
  cases h with
  | eol _ h | eof _ h =>
    rw [h]
    simp
    omega
  | @word blanks w _ h hb hw hend =>
    cases w with
    | cons a w =>
      simp [h]
      omega
    | nil =>
      -- The empty word is before a space that is no blank, and the line goes on there.
      obtain ⟨b, hb, hsolid⟩ := hb
      obtain ⟨line, hline, hbefore⟩ := hl.line
      obtain ⟨d, rest', rfl, hd⟩ := hl.stop
      cases line with
      | nil =>
        rw [nil_append] at hline hb
        rw [hline] at hb
        cases hb
        exact absurd hd (by simp [hsolid.2.2])
      | cons a line =>
        simp [h, hline]
        omega

end UBoot.Boot.Pxe
