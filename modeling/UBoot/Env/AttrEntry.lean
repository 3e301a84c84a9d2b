import UBoot.Env.AttrSearch

/-!
# The form of an attribute list

The lists that `env_attr.h` describes. What the walk over a list visits are its
entries, and the last place where a text stands as a name is in the last entry
with this name: what is around a name keeps other occurrences of the text away
from it.
-/

namespace UBoot.Env.Attr

open List

/-! ## The form of a list -/

def spaces (n : Nat) : Text := List.replicate n chSpace

structure NameText (name : Text) : Prop where
  chars : ∀ c ∈ name, c ≠ chDelim ∧ c ≠ chSep ∧ c ≠ 0
  first : ∃ c ∈ name.head?, isspace c = false
  last : ∃ c ∈ name.getLast?, isspace c = false

def AttributesText (attributes : Text) : Prop :=
  ∀ c ∈ attributes, c ≠ chDelim ∧ c ≠ chSep ∧ isspace c = false

inductive EntryText : Text → Text → Option Text → Prop
  | blank (n : Nat) : EntryText (spaces n) [] none
  | name (i j : Nat) (hn : NameText name) : EntryText (spaces i ++ (name ++ spaces j)) name none
  | attributes (i j k l : Nat) (hn : NameText name) (ha : AttributesText attributes) :
      EntryText (spaces i ++ (name ++ (spaces j ++ chSep :: (spaces k ++ (attributes ++ spaces l)))))
        name (some attributes)

inductive ListText : Text → List (Text × Option Text) → Prop
  | last (h : EntryText entry name attributes) : ListText entry [(name, attributes)]
  | cons (h : EntryText entry name attributes) (hl : ListText list es) :
      ListText (entry ++ chDelim :: list) ((name, attributes) :: es)

variable {list name : Text}

/-! ## The name of an entry -/

@[simp] theorem chDelim_ne_chSpace : chDelim ≠ chSpace := by decide
@[simp] theorem chSep_ne_chSpace : chSep ≠ chSpace := by decide
@[simp] theorem chDelim_ne_chSep : chDelim ≠ chSep := by decide

def EntryEnd (t : Text) : Prop := t = [] ∨ ∃ t', t = chDelim :: t'

@[simp] theorem skipSpaces_spaces (n : Nat) (s : Text) :
    skipSpaces (spaces n ++ s) = skipSpaces s := by
  induction n with
  | zero => rfl
  | succ n ih => simp [spaces, replicate_succ, skipSpaces]

theorem skipSpaces_entryEnd (ht : EntryEnd t) : skipSpaces t = t := by
  obtain rfl | ⟨t', rfl⟩ := ht
  · rfl
  · simp [skipSpaces]

theorem attributesOf_entryEnd (n : Nat) (ht : EntryEnd t) : attributesOf (spaces n ++ t) = [] := by
  rw [attributesOf, skipSpaces_spaces, skipSpaces_entryEnd ht]
  obtain rfl | ⟨t', rfl⟩ := ht
  · rfl
  · simp

theorem attributesOf_attributes (ha : AttributesText attributes) (j k l : Nat) (ht : EntryEnd t) :
    attributesOf (spaces j ++ chSep :: (spaces k ++ (attributes ++ (spaces l ++ t)))) =
      attributes := by
  have hsep (s : Text) : attributesOf (spaces j ++ chSep :: s) =
      (skipSpaces s).takeWhile fun c => c ≠ chDelim ∧ c ≠ chSpace := by
    simp [attributesOf, show skipSpaces (chSep :: s) = chSep :: s by simp [skipSpaces]]
  have hend : (spaces l ++ t).takeWhile (fun c => c ≠ chDelim ∧ c ≠ chSpace) = [] := by
    cases l with
    | succ l => simp [spaces, replicate_succ]
    | zero => obtain rfl | ⟨t', rfl⟩ := ht <;> simp [spaces]
  have hall : ∀ c ∈ attributes, decide (c ≠ chDelim ∧ c ≠ chSpace) = true := fun c hc =>
    decide_eq_true ⟨(ha c hc).1, ne_space_of_isspace (ha c hc).2.2⟩
  rw [hsep, skipSpaces_spaces]
  cases attributes with
  | nil =>
    rw [nil_append, skipSpaces_spaces, skipSpaces_entryEnd ht]
    obtain rfl | ⟨t', rfl⟩ := ht <;> simp
  | cons c attributes =>
    have hskip (s : Text) : skipSpaces (c :: s) = c :: s := by
      simp [skipSpaces, ne_space_of_isspace (ha c mem_cons_self).2.2]
    rw [cons_append, hskip, ← cons_append, takeWhile_append_of_pos hall, hend,
      append_nil]

structure Behind (attributes : Option Text) (s : Text) : Prop where
  closes : Closes s
  attributes : attributesOf s = attributes.getD []
  head : ∀ c ∈ s.head?, c = chSpace ∨ c = chSep ∨ c = chDelim

theorem head_spaces (n : Nat) (h : ∀ c ∈ s.head?, c = chSpace ∨ c = chSep ∨ c = chDelim) :
    ∀ c ∈ (spaces n ++ s).head?, c = chSpace ∨ c = chSep ∨ c = chDelim := by
  cases n with
  | zero => exact h
  | succ n =>
    intro c hc
    obtain rfl : chSpace = c := by simpa [spaces, replicate_succ] using hc
    exact .inl rfl

theorem Behind.none (n : Nat) (ht : EntryEnd t) : Behind none (spaces n ++ t) where
  closes := by
    rw [Closes, nextch, skipSpaces_spaces, skipSpaces_entryEnd ht]
    obtain rfl | ⟨t', rfl⟩ := ht
    · exact .inr (.inr rfl)
    · exact .inr (.inl rfl)
  attributes := attributesOf_entryEnd n ht
  head := by
    refine head_spaces n fun c hc => ?_
    obtain rfl | ⟨t', rfl⟩ := ht
    · cases hc
    · obtain rfl : chDelim = c := by simpa using hc
      exact .inr (.inr rfl)

theorem Behind.some {attributes : Text} (ha : AttributesText attributes) (j k l : Nat)
    (ht : EntryEnd t) : Behind (some attributes)
      (spaces j ++ chSep :: (spaces k ++ (attributes ++ (spaces l ++ t)))) where
  closes := by
    rw [Closes, nextch, skipSpaces_spaces]
    simp [skipSpaces]
  attributes := attributesOf_attributes ha j k l ht
  head := by
    refine head_spaces j fun c hc => ?_
    obtain rfl : chSep = c := by simpa using hc
    exact .inr (.inl rfl)

theorem EntryText.split {entry m : Text} {attributes : Option Text}
    (h : EntryText entry m attributes) : ∃ i r, entry = spaces i ++ (m ++ r) ∧
      (m = [] ∧ r = [] ∨ NameText m) ∧ ∀ t, EntryEnd t → Behind attributes (r ++ t) := by
  cases h with
  | blank n => exact ⟨n, [], by simp, .inl ⟨rfl, rfl⟩, fun t ht => Behind.none 0 ht⟩
  | name i j hn => exact ⟨i, spaces j, rfl, .inr hn, fun t ht => Behind.none j ht⟩
  | attributes i j k l hn ha =>
    refine ⟨i, _, rfl, .inr hn, fun t ht => ?_⟩
    simpa using Behind.some ha j k l ht

theorem mem_spaces (h : c ∈ spaces n) : c = chSpace :=
  eq_of_mem_replicate h

theorem EntryText.no_delim {attributes : Option Text} (h : EntryText entry m attributes) :
    ∀ c ∈ entry, c ≠ chDelim := by
  have hspaces (n : Nat) (c : UInt8) (hc : c ∈ spaces n) : c ≠ chDelim := by
    rw [mem_spaces hc]
    decide
  intro c hc
  cases h with
  | blank n => exact hspaces n c hc
  | name i j hn =>
    simp only [mem_append] at hc
    obtain hc | hc | hc := hc
    · exact hspaces i c hc
    · exact (hn.chars c hc).1
    · exact hspaces j c hc
  | attributes i j k l hn ha =>
    simp only [mem_append, mem_cons] at hc
    obtain hc | hc | hc | rfl | hc | hc | hc := hc
    · exact hspaces i c hc
    · exact (hn.chars c hc).1
    · exact hspaces j c hc
    · decide
    · exact hspaces k c hc
    · exact (ha c hc).1
    · exact hspaces l c hc

theorem nextch_mem (h : ∃ c ∈ s, c ≠ chSpace) (t : Text) : nextch (s ++ t) ∈ s := by
  induction s with
  | nil => simp at h
  | cons d s ih =>
    by_cases hd : d = chSpace
    · have hrest : ∃ c ∈ s, c ≠ chSpace := by simpa [hd] using h
      have hskip : nextch (d :: s ++ t) = nextch (s ++ t) := by simp [nextch, skipSpaces, hd]
      rw [hskip]
      exact mem_cons_of_mem _ (ih hrest)
    · rw [cons_append, nextch_cons hd]
      exact mem_cons_self

theorem prefix_of_behind (hw : Wanted name) (hb : Behind attributes s) (h : name <+: m ++ s) :
    name <+: m := by
  obtain ⟨rest, hrest⟩ := h
  obtain ⟨m', rfl, -⟩ | ⟨bs, rfl, hs⟩ := append_eq_append_iff.mp hrest
  · exact prefix_append name m'
  · cases bs with
    | nil => simp
    | cons c bs =>
      obtain ⟨hdelim, hsep, -, hspace⟩ := hw c (by simp)
      have := hb.head c (by simp [hs])
      have := ne_space_of_isspace hspace
      tauto

theorem eq_of_closes (hw : Wanted name) (hm : NameText m) (hb : Behind attributes s)
    (hp : name <+: m ++ s) (hc : Closes ((m ++ s).drop name.length)) : m = name := by
  obtain ⟨m', rfl⟩ := prefix_of_behind hw hb hp
  by_contra hne
  have hm' : m' ≠ [] := by
    rintro rfl
    simp at hne
  rw [append_assoc, drop_left] at hc
  obtain ⟨c, hlast, hspace⟩ := hm.last
  have hmem : c ∈ m' := by
    rw [getLast?_append_of_ne_nil _ hm'] at hlast
    exact mem_of_mem_getLast? hlast
  have hnext := nextch_mem ⟨c, hmem, ne_space_of_isspace hspace⟩ s
  obtain ⟨hdelim, hsep, hz⟩ := hm.chars _ (mem_append_right name hnext)
  rw [Closes] at hc
  tauto

theorem Hit.getD (h : Hit list name p) (hp : p ≤ k) (hk : k < p + name.length) :
    list.getD k 0 ∈ name := by
  obtain ⟨rest, hrest⟩ := h
  have hget : list[k]? = name[k - p]? := by
    rw [← Nat.add_sub_cancel' hp, ← getElem?_drop, ← hrest,
      getElem?_append_left (by omega), Nat.add_sub_cancel' hp]
  rw [getD_eq_getElem?_getD, hget, getElem?_eq_getElem (by omega), Option.getD_some]
  exact getElem_mem _

theorem Front.unique (hw : Wanted name) (hn : name ≠ []) (hp : Hit list name p)
    (hq : Hit list name q) (hfp : Front list p) (hfq : Front list q) : p = q := by
  have hlt {p q : Nat} (hp : Hit list name p) (hfq : Front list q) : ¬ p < q := fun hlt =>
    ne_space_of_isspace (hw _ (hp.getD le_rfl (by have := length_pos_iff.mpr hn; omega))).2.2.2
      (hfq p hlt)
  exact le_antisymm (not_lt.mp (hlt hq hfp)) (not_lt.mp (hlt hp hfq))

theorem getD_spaces (hk : k < n) (s : Text) : (spaces n ++ s).getD k 0 = chSpace := by
  rw [getD_append _ _ _ _ (by simpa [spaces] using hk)]
  simp [spaces, getD_eq_getElem?_getD, hk]

theorem drop_spaces (n k : Nat) (s : Text) : (spaces n ++ s).drop (n + k) = s.drop k := by
  rw [← drop_drop, drop_left' (by simp [spaces])]

theorem drop_spaces_self (n : Nat) (s : Text) : (spaces n ++ s).drop n = s :=
  drop_left' (by simp [spaces])

variable {entry m t : Text} {attributes : Option Text}

theorem Hit.inside (ht : EntryEnd t) (hw : Wanted name) (hn : name ≠ [])
    (hp : Hit (entry ++ t) name p) (hle : p ≤ entry.length) : p + name.length ≤ entry.length := by
  by_contra hover
  have hlen := hp.le hn
  have hmem := hp.getD hle (by omega)
  obtain rfl | ⟨t', rfl⟩ := ht
  · simp at hlen
    omega
  · rw [getD_append_right _ _ _ _ le_rfl, Nat.sub_self] at hmem
    exact (hw _ hmem).1 rfl

section
variable (he : EntryText entry m attributes)
include he

theorem EntryText.front_of_exact (hx : Exact (entry ++ t) name p) (hle : p ≤ entry.length) :
    Front (entry ++ t) p := by
  refine hx.opens.resolve_right ?_
  rintro ⟨j, hj, hdelim, -⟩
  have hlt : j < entry.length := by omega
  rw [getD_append _ _ _ _ hlt, getD_eq_getElem _ _ hlt] at hdelim
  exact he.no_delim _ (getElem_mem hlt) hdelim

theorem EntryText.eq_of_exact (ht : EntryEnd t) (hw : Wanted name) (hn : name ≠ [])
    (hx : Exact (entry ++ t) name p) (hle : p ≤ entry.length) : m = name := by
  have hpos := length_pos_iff.mpr hn
  have hfront := he.front_of_exact hx hle
  have hinside := hx.hit.inside ht hw hn hle
  have hfirst := ne_space_of_isspace (hw _ (hx.hit.getD le_rfl (by omega))).2.2.2
  obtain ⟨i, r, rfl, hm, hbehind⟩ := he.split
  rw [append_assoc] at hfront hfirst
  have hge : i ≤ p := by
    by_contra hlt
    exact hfirst (getD_spaces (by omega) _)
  obtain ⟨rfl, rfl⟩ | hm := hm
  · simp [spaces] at hinside
    omega
  · have hle : p ≤ i := by
      by_contra hlt
      have hspace := hfront i (by omega)
      obtain ⟨c, hc, hcspace⟩ := hm.first
      have hi : (spaces i ++ (m ++ r ++ t)).getD i 0 = c := by
        rw [getD_append_right _ _ _ _ (by simp [spaces])]
        obtain ⟨m', rfl⟩ : ∃ m', m = c :: m' := head?_eq_some_iff.mp hc
        simp [spaces]
      exact ne_space_of_isspace hcspace (hi.symm.trans hspace)
    obtain rfl : p = i := le_antisymm hle hge
    have hhit := hx.hit
    have hcloses := hx.closes
    rw [Hit, append_assoc, drop_spaces_self, append_assoc] at hhit
    rw [append_assoc, drop_spaces, append_assoc] at hcloses
    exact eq_of_closes hw hm (hbehind t ht) hhit hcloses

theorem EntryText.exact (ht : EntryEnd t) (hm : m = name) :
    ∃ p ≤ entry.length, Exact (entry ++ t) name p ∧
      attributesOf ((entry ++ t).drop (p + name.length)) = attributes.getD [] := by
  obtain ⟨i, r, rfl, -, hbehind⟩ := he.split
  subst hm
  have hdrop : (spaces i ++ (m ++ r) ++ t).drop i = m ++ (r ++ t) := by
    rw [append_assoc, drop_spaces_self, append_assoc]
  have hrest : (spaces i ++ (m ++ r) ++ t).drop (i + m.length) = r ++ t := by
    rw [← drop_drop, hdrop, drop_left]
  refine ⟨i, by simp [spaces], ⟨?_, .inl fun k hk => ?_, ?_⟩, ?_⟩
  · rw [Hit, hdrop]
    exact prefix_append m _
  · rw [append_assoc]
    exact getD_spaces hk _
  · rw [hrest]
    exact (hbehind t ht).closes
  · rw [hrest]
    exact (hbehind t ht).attributes

end

/-! ## The last entry with a name -/

def lastNamed (name : Text) (es : List (Text × Option Text)) : Option (Text × Option Text) :=
  (es.filter fun e => e.1 = name).getLast?

theorem opens_shift (entry : Text) (q : Nat) :
    Front (entry ++ chDelim :: list) (entry.length + 1 + q) ∨
      AfterDelim (entry ++ chDelim :: list) (entry.length + 1 + q) ↔
    Front list q ∨ AfterDelim list q := by
  have hdelim : (entry ++ chDelim :: list).getD entry.length 0 = chDelim := by simp
  have hget (k : Nat) : (entry ++ chDelim :: list).getD (entry.length + 1 + k) 0 =
      list.getD k 0 := by
    rw [getD_append_right _ _ _ _ (by omega),
      show entry.length + 1 + k - entry.length = k + 1 by omega]
    rfl
  constructor
  · rintro (hfront | ⟨j, hj, hjdelim, hspaces⟩)
    · have := hfront entry.length (by omega)
      exact absurd (hdelim.symm.trans this) (by decide)
    · have hrest (k : Nat) (hk : k < q) (hjk : j < entry.length + 1 + k) :
          list.getD k 0 = chSpace := hget k ▸ hspaces _ (by omega) hjk
      obtain hlt | rfl | hgt := lt_trichotomy j entry.length
      · have := hspaces entry.length (by omega) hlt
        exact absurd (hdelim.symm.trans this) (by decide)
      · exact .inl fun k hk => hrest k hk (by omega)
      · obtain ⟨j', rfl⟩ := Nat.exists_eq_add_of_le (Nat.succ_le_of_lt hgt)
        exact .inr ⟨j', by omega, (hget j').symm.trans hjdelim,
          fun k hk hjk => hrest k hk (by omega)⟩
  · have hspaces {j : Nat} (hall : ∀ k < q, j < entry.length + 1 + k → list.getD k 0 = chSpace)
        (hj : entry.length ≤ j) : ∀ k < entry.length + 1 + q, j < k →
          (entry ++ chDelim :: list).getD k 0 = chSpace := by
      intro k hk hjk
      obtain ⟨k', rfl⟩ := Nat.exists_eq_add_of_le (show entry.length + 1 ≤ k by omega)
      exact (hget k').trans (hall k' (by omega) hjk)
    rintro (hfront | ⟨j, hj, hjdelim, hall⟩)
    · exact .inr ⟨entry.length, by omega, hdelim, hspaces (fun k hk _ => hfront k hk) le_rfl⟩
    · exact .inr ⟨entry.length + 1 + j, by omega, (hget j).trans hjdelim,
        hspaces (fun k hk hjk => hall k hk (by omega)) (by omega)⟩

theorem drop_behind (entry : Text) (k : Nat) :
    (entry ++ chDelim :: list).drop (entry.length + 1 + k) = list.drop k := by
  rw [Nat.add_assoc, ← drop_drop, drop_left, Nat.add_comm 1]
  rfl

theorem exact_shift (entry : Text) (q : Nat) :
    Exact (entry ++ chDelim :: list) name (entry.length + 1 + q) ↔ Exact list name q := by
  constructor
  · rintro ⟨hhit, hopens, hcloses⟩
    rw [Hit, drop_behind] at hhit
    rw [Nat.add_assoc, drop_behind] at hcloses
    exact ⟨hhit, (opens_shift entry q).mp hopens, hcloses⟩
  · rintro ⟨hhit, hopens, hcloses⟩
    refine ⟨by rwa [Hit, drop_behind], (opens_shift entry q).mpr hopens, ?_⟩
    rwa [Nat.add_assoc, drop_behind]

theorem lastNamed_cons (name : Text) (e : Text × Option Text) (es : List (Text × Option Text)) :
    lastNamed name (e :: es) =
      (lastNamed name es).or (if e.1 = name then some e else none) := by
  unfold lastNamed
  by_cases he : e.1 = name
  · rw [filter_cons_of_pos (by simpa using he), getLast?_cons, if_pos he]
    cases (es.filter fun e => e.1 = name).getLast? <;> rfl
  · rw [filter_cons_of_neg (by simpa using he), if_neg he, Option.or_none]

def LastIn (list name : Text) (seen : Nat → Prop) : Option (Text × Option Text) → Prop
  | none => ∀ q, seen q → ¬ Exact list name q
  | some e => ∃ p, seen p ∧ (Exact list name p ∧ ∀ q, seen q → Exact list name q → q ≤ p) ∧
      attributesOf (list.drop (p + name.length)) = e.2.getD []

theorem LastIn.all (h : LastIn list name seen e)
    (hall : ∀ q, Exact list name q → seen q) : LastIn list name (fun _ => True) e := by
  cases e with
  | none => exact fun q _ hx => h q (hall q hx) hx
  | some e =>
    obtain ⟨p, -, ⟨hx, hlast⟩, hattributes⟩ := h
    exact ⟨p, trivial, ⟨hx, fun q _ hxq => hlast q (hall q hxq) hxq⟩, hattributes⟩

theorem EntryText.lastIn (he : EntryText entry m attributes) (ht : EntryEnd t)
    (hw : Wanted name) (hn : name ≠ []) :
    LastIn (entry ++ t) name (· ≤ entry.length)
      (if m = name then some (m, attributes) else none) := by
  split
  next hm =>
    obtain ⟨p, hp, hx, hattributes⟩ := he.exact ht hm
    refine ⟨p, hp, ⟨hx, fun q hq hxq => ?_⟩, hattributes⟩
    exact (Front.unique hw hn hxq.hit hx.hit (he.front_of_exact hxq hq)
      (he.front_of_exact hx hp)).le
  next hm => exact fun q hq hx => hm (he.eq_of_exact ht hw hn hx hq)

theorem ListText.lastIn (h : ListText list es) (hw : Wanted name) (hn : name ≠ []) :
    LastIn list name (fun _ => True) (lastNamed name es) := by
  induction h with
  | @last entry m attributes he =>
    have hin := he.lastIn (.inl rfl) hw hn
    have hle (q : Nat) (hx : Exact entry name q) : q ≤ entry.length := by
      have := hx.hit.le hn
      omega
    rw [append_nil] at hin
    rw [lastNamed_cons, show lastNamed name [] = none from rfl, Option.none_or]
    exact hin.all hle
  | @cons entry m attributes list es he hl ih =>
    rw [lastNamed_cons]
    -- A place of the list behind the entry, or one of the entry.
    have hplace (q : Nat) (hq : ¬ q ≤ entry.length) : ∃ q', q = entry.length + 1 + q' :=
      Nat.exists_eq_add_of_le (by omega)
    cases hlast : lastNamed name es with
    | some e =>
      rw [hlast] at ih
      obtain ⟨p, -, ⟨hx, hle⟩, hattributes⟩ := ih
      refine ⟨entry.length + 1 + p, trivial, ⟨(exact_shift entry p).mpr hx, fun q _ hxq => ?_⟩, ?_⟩
      · by_cases hq : q ≤ entry.length
        · omega
        · obtain ⟨q', rfl⟩ := hplace q hq
          have := hle q' trivial ((exact_shift entry q').mp hxq)
          omega
      · rw [Nat.add_assoc, drop_behind]
        exact hattributes
    | none =>
      rw [hlast] at ih
      rw [Option.none_or]
      have hin := he.lastIn (.inr ⟨list, rfl⟩) hw hn
      have hle (q : Nat) (hxq : Exact (entry ++ chDelim :: list) name q) : q ≤ entry.length := by
        by_contra hq
        obtain ⟨q', rfl⟩ := hplace q hq
        exact ih q' trivial ((exact_shift entry q').mp hxq)
      exact hin.all hle

/-! ## The walk -/

theorem entries_append (list : Text) (h : ∀ c ∈ entry, c ≠ chDelim) :
    entries entry = [entry] ∧ entries (entry ++ chDelim :: list) = entry :: entries list := by
  induction entry with
  | nil => simp [entries]
  | cons c entry ih =>
    obtain ⟨hc, hrest⟩ := forall_mem_cons.mp h
    obtain ⟨hone, hmore⟩ := ih hrest
    simp [entries, if_neg hc, hone, hmore]

theorem dropWhile_spaces (n : Nat) (s : Text) :
    (spaces n ++ s).dropWhile isspace = s.dropWhile isspace := by
  induction n with
  | zero => rfl
  | succ n ih =>
    rw [spaces, replicate_succ, cons_append, dropWhile_cons_of_pos (by decide)]
    exact ih

theorem rdropWhile_spaces (n : Nat) (s : Text) :
    (s ++ spaces n).rdropWhile isspace = s.rdropWhile isspace := by
  unfold rdropWhile
  rw [reverse_append, show (spaces n).reverse = spaces n from reverse_replicate,
    dropWhile_spaces]

theorem strim_spaces (i j : Nat) (hfirst : ∀ c ∈ s.head?, isspace c = false)
    (hlast : ∀ c ∈ s.getLast?, isspace c = false) : strim (spaces i ++ (s ++ spaces j)) = s := by
  rw [strim, dropWhile_spaces]
  cases s with
  | nil =>
    have hnil : (spaces j).dropWhile isspace = [] := by simpa using dropWhile_spaces j []
    rw [nil_append, hnil]
    rfl
  | cons c s =>
    have hc : ¬ isspace c = true := by simp [hfirst c rfl]
    rw [cons_append, dropWhile_cons_of_neg hc, ← cons_append, rdropWhile_spaces,
      rdropWhile_eq_self_iff]
    intro hne
    simp [hlast _ (getLast?_eq_getLast_of_ne_nil hne)]

theorem NameText.strim (h : NameText m) (i j : Nat) :
    strim (spaces i ++ (m ++ spaces j)) = m := by
  obtain ⟨c, hc, hcspace⟩ := h.first
  obtain ⟨d, hd, hdspace⟩ := h.last
  refine strim_spaces i j (fun c' hc' => ?_) (fun d' hd' => ?_)
  · rwa [Option.mem_unique hc' hc]
  · rwa [Option.mem_unique hd' hd]

theorem AttributesText.strim {attributes : Text} (h : AttributesText attributes) (k l : Nat) :
    Attr.strim (spaces k ++ (attributes ++ spaces l)) = attributes :=
  strim_spaces k l (fun c hc => (h c (mem_of_mem_head? hc)).2.2)
    (fun c hc => (h c (mem_of_mem_getLast? hc)).2.2)

theorem NameText.no_sep (h : NameText m) (i j : Nat) :
    ∀ c ∈ spaces i ++ (m ++ spaces j), decide (c ≠ chSep) = true := by
  have hspace (n : Nat) (c : UInt8) (hc : c ∈ spaces n) : decide (c ≠ chSep) = true := by
    rw [mem_spaces hc]
    decide
  intro c hc
  simp only [mem_append] at hc
  obtain hc | hc | hc := hc
  · exact hspace i c hc
  · exact decide_eq_true (h.chars c hc).2.1
  · exact hspace j c hc

theorem EntryText.parse (he : EntryText entry m attributes) :
    parseEntry entry = if m = [] then none else some (m, attributes) := by
  cases he with
  | blank n =>
    have htake : (spaces n).takeWhile (· ≠ chSep) = spaces n :=
      takeWhile_eq_self_iff.mpr fun c hc => by
        rw [mem_spaces hc]
        decide
    have hstrim : strim (spaces n) = [] := by
      have h := strim_spaces n 0 (s := []) (by simp) (by simp)
      rwa [show [] ++ spaces 0 = [] from rfl, append_nil] at h
    simp only [parseEntry, htake, hstrim, ↓reduceIte]
  | name i j hn =>
    have htake := takeWhile_eq_self_iff.mpr (hn.no_sep i j)
    have hdrop := dropWhile_eq_nil_iff.mpr (hn.no_sep i j)
    simp only [parseEntry, htake, hdrop, hn.strim, tail?_nil, Option.map_none]
  | attributes i j k l hn ha =>
    rename_i attributes
    have htext : spaces i ++ (m ++ (spaces j ++ chSep :: (spaces k ++ (attributes ++ spaces l)))) =
        spaces i ++ (m ++ spaces j) ++ chSep :: (spaces k ++ (attributes ++ spaces l)) := by
      simp only [append_assoc]
    have htake (s : Text) : (spaces i ++ (m ++ spaces j) ++ chSep :: s).takeWhile (· ≠ chSep) =
        spaces i ++ (m ++ spaces j) := by
      rw [takeWhile_append_of_pos (hn.no_sep i j)]
      simp
    have hdrop (s : Text) : (spaces i ++ (m ++ spaces j) ++ chSep :: s).dropWhile (· ≠ chSep) =
        chSep :: s := by
      rw [dropWhile_append_of_pos (hn.no_sep i j)]
      simp
    rw [htext]
    simp only [parseEntry, htake, hdrop, hn.strim, ha.strim, tail?_cons, Option.map_some]

theorem ListText.visited_eq (h : ListText list es) :
    visited list = es.filter fun e => e.1 ≠ [] := by
  induction h with
  | @last entry m attributes he =>
    rw [visited, (entries_append [] he.no_delim).1]
    by_cases hm : m = [] <;> simp [he.parse, hm]
  | @cons entry m attributes list es he hl ih =>
    rw [visited, (entries_append list he.no_delim).2]
    rw [visited] at ih
    by_cases hm : m = [] <;> simp [he.parse, hm, ih]

theorem lastNamed_visited (h : ListText list es) (hn : name ≠ []) :
    lastNamed name (visited list) = lastNamed name es := by
  rw [h.visited_eq, lastNamed, lastNamed, filter_filter]
  congr 2
  funext e
  by_cases he : e.1 = name
  · simp [he, hn]
  · simp [he]

end UBoot.Env.Attr
