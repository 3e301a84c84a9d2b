import UBoot.Env.Attr

/-!
# The search for a name

Where a text stands in an attribute list, which of these places the search comes
to, and that it ends at the last one where the text stands as a name.
-/

namespace UBoot.Env.Attr

open List

def Wanted (name : Text) : Prop :=
  ∀ c ∈ name, c ≠ chDelim ∧ c ≠ chSep ∧ c ≠ 0 ∧ isspace c = false

/-! ## Where a text stands -/

def Hit (list name : Text) (p : Nat) : Prop := name <+: list.drop p

instance (list name : Text) (p : Nat) : Decidable (Hit list name p) :=
  inferInstanceAs (Decidable (_ <+: _))

/-- The last place where the text stands, before `start` if there is one. -/
structure LastHit (list name : Text) (start : Option Nat) (p : Nat) : Prop where
  hit : Hit list name p
  before : ∀ s ∈ start, p + name.length ≤ s
  last : ∀ q, Hit list name q → (∀ s ∈ start, q + name.length ≤ s) → q ≤ p

variable {list name : Text}

theorem Hit.le (h : Hit list name p) (hn : name ≠ []) : p + name.length ≤ list.length := by
  have hlen := h.length_le
  have hpos := length_pos_iff.mpr hn
  rw [length_drop] at hlen
  omega

theorem strstr_eq_some (hn : name ≠ []) : strstr list name i = some p ↔
    Hit list name p ∧ i ≤ p ∧ ∀ k, i ≤ k → k < p → ¬ Hit list name k := by
  rw [strstr, find?_range'_eq_some]
  simp only [ isPrefixOf_iff_prefix, mem_range'_1, Bool.not_eq_true', ← Bool.not_eq_true]
  constructor
  · rintro ⟨hp, ⟨hi, -⟩, hk⟩
    exact ⟨hp, hi, fun k h h' => hk k h h'⟩
  · rintro ⟨hp, hi, hk⟩
    have := Hit.le hp hn
    exact ⟨hp, ⟨hi, by omega⟩, fun k h h' => hk k h h'⟩

theorem strstr_eq_none (hn : name ≠ []) : strstr list name i = none ↔
    ∀ p, i ≤ p → ¬ Hit list name p := by
  rw [strstr, find?_range'_eq_none]
  simp only [ isPrefixOf_iff_prefix, Bool.not_eq_true', ← Bool.not_eq_true]
  constructor
  · intro h p hi hp
    have := Hit.le hp hn
    exact h p hi (by omega) hp
  · exact fun h p hi _ => h p hi

/-- What a search for the last hit before `start` finds, if it has seen the hits
that are `seen`. -/
def Found (list name : Text) (start : Option Nat) (seen : Nat → Prop) : Option Nat → Prop
  | none => ∀ q, seen q → Hit list name q → ¬ ∀ s ∈ start, q + name.length ≤ s
  | some p => Hit list name p ∧ (∀ s ∈ start, p + name.length ≤ s) ∧
      ∀ q, seen q → Hit list name q → (∀ s ∈ start, q + name.length ≤ s) → q ≤ p

theorem Found.all (h : Found list name start seen result)
    (hrest : ∀ q, ¬ seen q → Hit list name q → ¬ ∀ s ∈ start, q + name.length ≤ s) :
    Found list name start (fun _ => True) result := by
  cases result with
  | none =>
    intro q _ hq hs
    by_cases hseen : seen q
    · exact h q hseen hq hs
    · exact hrest q hseen hq hs
  | some p =>
    refine ⟨h.1, h.2.1, fun q _ hq hs => ?_⟩
    by_cases hseen : seen q
    · exact h.2.2 q hseen hq hs
    · exact absurd hs (hrest q hseen hq)

theorem reverseLoop_found (hn : name ≠ []) (hf : list.length < fuel + searched)
    (h : Found list name start (· < searched) result) :
    Found list name start (fun _ => True) (reverseLoop list name start fuel searched result) := by
  induction fuel generalizing searched result with
  | zero =>
    refine h.all fun q hseen hq => ?_
    have := hq.le hn
    omega
  | succ fuel ih =>
    rw [reverseLoop]
    cases hstr : strstr list name searched with
    | none =>
      rw [strstr_eq_none hn] at hstr
      exact h.all fun q hseen hq => absurd hq (hstr q (not_lt.mp hseen))
    | some hit =>
      obtain ⟨hhit, hle, hbetween⟩ := (strstr_eq_some hn).mp hstr
      have hge (q : Nat) (hseen : ¬ q < searched) (hq : Hit list name q) : hit ≤ q := by
        by_contra hlt
        exact hbetween q (not_lt.mp hseen) (not_le.mp hlt) hq
      dsimp only
      split
      next hlate =>
        obtain ⟨s, hs, hlate⟩ := hlate
        refine h.all fun q hseen hq hbefore => ?_
        have := hge q hseen hq
        have := hbefore s hs
        omega
      next hearly =>
        refine ih (by omega) ⟨hhit, by push Not at hearly; exact hearly, fun q hq _ _ => ?_⟩
        exact Nat.lt_succ_iff.mp hq

theorem reverseStrstr_found (list : Text) (hn : name ≠ []) (start : Option Nat) :
    Found list name start (fun _ => True) (reverseStrstr list name start) := by
  rw [reverseStrstr, if_neg hn]
  exact reverseLoop_found hn (by omega) (fun q hq => absurd hq (Nat.not_lt_zero q))

theorem LastHit.unique (h : LastHit list name start p)
    (h' : LastHit list name start q) : p = q :=
  le_antisymm (h'.last p h.hit h.before) (h.last q h'.hit h'.before)

theorem lastHit_iff (hn : name ≠ []) (start : Option Nat) (p : Nat) :
    LastHit list name start p ↔ reverseStrstr list name start = some p := by
  have hfound := reverseStrstr_found list hn start
  cases hr : reverseStrstr list name start with
  | none =>
    rw [hr] at hfound
    simp only [reduceCtorEq, iff_false]
    exact fun h => hfound p trivial h.hit h.before
  | some q =>
    rw [hr] at hfound
    have hq : LastHit list name start q := ⟨hfound.1, hfound.2.1, fun q => hfound.2.2 q trivial⟩
    constructor
    · exact fun h => congrArg some (hq.unique h)
    · rintro ⟨⟩
      exact hq

/-! ## What is around a name -/

def Front (list : Text) (p : Nat) : Prop := ∀ k < p, list.getD k 0 = chSpace

instance (list : Text) (p : Nat) : Decidable (Front list p) :=
  inferInstanceAs (Decidable (∀ k < p, _))

def AfterDelim (list : Text) (p : Nat) : Prop :=
  ∃ j < p, list.getD j 0 = chDelim ∧ ∀ k < p, j < k → list.getD k 0 = chSpace

def Closes (s : Text) : Prop := nextch s = chSep ∨ nextch s = chDelim ∨ nextch s = 0

structure Exact (list name : Text) (p : Nat) : Prop where
  hit : Hit list name p
  opens : Front list p ∨ AfterDelim list p
  closes : Closes (list.drop (p + name.length))

theorem prevch_front (h : Front list p) : prevch list p = .error .read := by
  induction p with
  | zero => rfl
  | succ p ih =>
    rw [prevch, h p (Nat.lt_succ_self p)]
    exact ih fun k hk => h k (by omega)

theorem prevch_not_front (h : ¬ Front list p) :
    ∃ c, prevch list p = .ok c ∧ (c = chDelim ↔ AfterDelim list p) := by
  induction p with
  | zero => exact absurd (fun k hk => absurd hk (Nat.not_lt_zero k)) h
  | succ p ih =>
    rw [prevch]
    by_cases hspace : list.getD p 0 = chSpace
    · have hfront : ¬ Front list p := by
        intro hp
        refine h fun k hk => ?_
        obtain rfl | hne := eq_or_ne k p
        · exact hspace
        · exact hp k (by omega)
      obtain ⟨c, hc, hiff⟩ := ih hfront
      refine ⟨c, by simpa only [hspace, ↓reduceIte] using hc, hiff.trans ?_⟩
      constructor
      · rintro ⟨j, hj, hdelim, hbetween⟩
        refine ⟨j, by omega, hdelim, fun k hk hjk => ?_⟩
        obtain rfl | hne := eq_or_ne k p
        · exact hspace
        · exact hbetween k (by omega) hjk
      · rintro ⟨j, hj, hdelim, hbetween⟩
        have hne : j ≠ p := by
          rintro rfl
          rw [hspace] at hdelim
          exact absurd hdelim (by decide)
        exact ⟨j, by omega, hdelim, fun k hk => hbetween k (by omega)⟩
    · refine ⟨list.getD p 0, by simp only [hspace, ↓reduceIte], ?_⟩
      constructor
      · exact fun hdelim => ⟨p, Nat.lt_succ_self p, hdelim, fun k hk hpk => by omega⟩
      · rintro ⟨j, hj, hdelim, hbetween⟩
        obtain rfl | hne := eq_or_ne j p
        · exact hdelim
        · exact absurd (hbetween p (Nat.lt_succ_self p) (by omega)) hspace

theorem ne_space_of_isspace (h : isspace c = false) : c ≠ chSpace := by
  rintro rfl
  exact absurd h (by decide)

theorem nextch_cons (h : c ≠ chSpace) (s : Text) : nextch (c :: s) = c := by
  simp [nextch, skipSpaces, h]

theorem Wanted.not_closes (hw : Wanted name) (hc : c ∈ name) (s : Text) : ¬ Closes (c :: s) := by
  obtain ⟨hdelim, hsep, hz, hspace⟩ := hw c hc
  rw [Closes, nextch_cons (ne_space_of_isspace hspace)]
  tauto

theorem Exact.disjoint (hw : Wanted name) (h : Exact list name q) (hp : Hit list name p)
    (hlt : q < p) : q + name.length ≤ p := by
  by_contra hover
  obtain ⟨rest, hrest⟩ := hp
  have hdrop : list.drop (q + name.length) =
      name.drop (q + name.length - p) ++ rest := by
    have hsplit : list.drop (q + name.length) = (list.drop p).drop (q + name.length - p) := by
      rw [drop_drop]
      congr 1
      omega
    rw [hsplit, ← hrest, drop_append_of_le_length (by omega)]
  obtain ⟨c, tail, htail⟩ : ∃ c tail, name.drop (q + name.length - p) = c :: tail :=
    exists_cons_of_ne_nil (by simp; omega)
  have hc : c ∈ name := mem_of_mem_drop (htail ▸ mem_cons_self)
  have hcloses := h.closes
  rw [hdrop, htail] at hcloses
  exact hw.not_closes hc _ hcloses

/-! ## The search -/

inductive Chain (list name : Text) : Nat → Nat → Prop
  | refl (p : Nat) : Chain list name p p
  | step (hx : ¬ Exact list name p) (hl : LastHit list name (some p) p')
      (h : Chain list name p' q) : Chain list name p q

def Examined (list name : Text) (q : Nat) : Prop :=
  ∃ p, LastHit list name none p ∧ Chain list name p q

theorem lookupLoop_succ (hp : Hit list name p) (hfront : ¬ Front list p) :
    (Exact list name p → lookupLoop list name (fuel + 1) (some p) = .ok (some p)) ∧
    (¬ Exact list name p → lookupLoop list name (fuel + 1) (some p) =
      lookupLoop list name fuel (reverseStrstr list name (some p))) := by
  obtain ⟨c, hc, hdelim⟩ := prevch_not_front hfront
  have hpos : p ≠ 0 := by
    rintro rfl
    exact hfront fun k hk => absurd hk (Nat.not_lt_zero k)
  have hiff : Exact list name p ↔ (p = 0 ∨ c = chDelim) ∧
      Closes (list.drop (p + name.length)) := by
    constructor
    · exact fun h => ⟨.inr (hdelim.mpr (h.opens.resolve_left hfront)), h.closes⟩
    · exact fun h => ⟨hp, .inr (hdelim.mp (h.1.resolve_left hpos)), h.2⟩
  constructor
  · intro h
    have htest := hiff.mp h
    rw [Closes] at htest
    simp [lookupLoop, hc, bind, Except.bind, if_pos htest]
  · intro h
    have htest := mt hiff.mpr h
    rw [Closes] at htest
    simp [lookupLoop, hc, bind, Except.bind, if_neg htest]

theorem lookupLoop_front (hfront : Front list p) :
    lookupLoop list name (fuel + 1) (some p) = .error .read := by
  simp [lookupLoop, prevch_front hfront, bind, Except.bind]

theorem lookupLoop_none (fuel : Nat) : lookupLoop list name fuel none = .ok none := by
  cases fuel <;> rfl

theorem chain_iff (hx : ¬ Exact list name p) (hl : LastHit list name (some p) p') :
    Chain list name p q ↔ q = p ∨ Chain list name p' q := by
  constructor
  · intro h
    cases h with
    | refl => exact .inl rfl
    | step _ hl' h => exact .inr (hl.unique hl' ▸ h)
  · rintro (rfl | h)
    · exact .refl q
    · exact .step hx hl h

theorem lookupLoop_ok_iff (hn : name ≠ []) (hf : p < fuel) (hp : Hit list name p) :
    (∃ r, lookupLoop list name fuel (some p) = .ok r) ↔
      ∀ q, Chain list name p q → ¬ Front list q := by
  induction fuel generalizing p with
  | zero => omega
  | succ fuel ih =>
    by_cases hfront : Front list p
    · simp only [lookupLoop_front hfront, reduceCtorEq, exists_false, false_iff]
      exact fun h => h p (.refl p) hfront
    by_cases hx : Exact list name p
    · simp only [(lookupLoop_succ hp hfront).1 hx, Except.ok.injEq, exists_eq', true_iff]
      rintro q (_ | ⟨hx', -, -⟩)
      · exact hfront
      · exact absurd hx hx'
    · rw [(lookupLoop_succ hp hfront).2 hx]
      cases hnext : reverseStrstr list name (some p) with
      | none =>
        simp only [lookupLoop_none, Except.ok.injEq, exists_eq', true_iff]
        rintro q (_ | ⟨-, hl, -⟩)
        · exact hfront
        · rw [lastHit_iff hn, hnext] at hl
          cases hl
      | some p' =>
        have hl := (lastHit_iff hn _ _).mpr hnext
        have hlt : p' < p := by
          have := hl.before p rfl
          have := length_pos_iff.mpr hn
          omega
        rw [ih (by omega) hl.hit]
        simp [chain_iff hx hl, hfront]

def LastExact (list name : Text) (below : Nat → Prop) : Option Nat → Prop
  | none => ∀ q, below q → ¬ Exact list name q
  | some p => Exact list name p ∧ ∀ q, below q → Exact list name q → q ≤ p

theorem lookupLoop_lastExact (hn : name ≠ []) (hw : Wanted name) (hf : p < fuel)
    (hp : Hit list name p) (h : lookupLoop list name fuel (some p) = .ok r) :
    LastExact list name (· ≤ p) r := by
  induction fuel generalizing p with
  | zero => omega
  | succ fuel ih =>
    by_cases hfront : Front list p
    · rw [lookupLoop_front hfront] at h
      cases h
    by_cases hx : Exact list name p
    · rw [(lookupLoop_succ hp hfront).1 hx] at h
      cases h
      exact ⟨hx, fun q hq _ => hq⟩
    · rw [(lookupLoop_succ hp hfront).2 hx] at h
      -- An exact hit below this one ends before it, so that the search sees it.
      have hbelow (q : Nat) (hq : q ≤ p) (hxq : Exact list name q) : q + name.length ≤ p := by
        have hne : q ≠ p := by
          rintro rfl
          exact hx hxq
        exact hxq.disjoint hw hp (by omega)
      cases hnext : reverseStrstr list name (some p) with
      | none =>
        rw [hnext, lookupLoop_none] at h
        cases h
        have hfound := reverseStrstr_found list hn (some p)
        rw [hnext] at hfound
        exact fun q hq hxq => hfound q trivial hxq.hit (by simpa using hbelow q hq hxq)
      | some p' =>
        have hl := (lastHit_iff hn _ _).mpr hnext
        have hlt : p' < p := by
          have := hl.before p rfl
          have := length_pos_iff.mpr hn
          omega
        rw [hnext] at h
        have hrec := ih (by omega) hl.hit h
        have hle (q : Nat) (hq : q ≤ p) (hxq : Exact list name q) : q ≤ p' :=
          hl.last q hxq.hit (by simpa using hbelow q hq hxq)
        cases r with
        | none => exact fun q hq hxq => hrec q (hle q hq hxq) hxq
        | some r => exact ⟨hrec.1, fun q hq hxq => hrec.2 q (hle q hq hxq) hxq⟩

end UBoot.Env.Attr
