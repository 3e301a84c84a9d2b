import UBoot.Env.RoundTrip
import UBoot.Lib.Checked

/-!
# The accesses of an import

`himport_r` with the bytes that it writes. The writes stay behind what has been read, so that
only the reads can leave the copy.
-/

namespace UBoot.Env

open Checked
open List hiding next

/-! ## Writes -/

def store (size offset : Nat) : Except Fault Unit :=
  if offset < size then .ok () else .error .outOfBounds

def storeValue (sep : UInt8) (size : Nat) : Nat → List UInt8 → Except Fault (CString × List UInt8)
  | _, [] => .error .outOfBounds
  | sp, c :: dp =>
    if hc : c = 0 ∨ c = sep then do
      store size sp
      .ok (.nil, dp)
    else if c = chBackslash then
      match dp with
      | [] => .error .outOfBounds
      | d :: dp' =>
        if hd : d ≠ 0 then do
          store size sp
          let (value, rest) ← storeValue sep size (sp + 1) dp'
          .ok (.cons d hd value, rest)
        else do
          store size sp
          let (value, rest) ← storeValue sep size (sp + 1) (d :: dp')
          .ok (.cons c (mt .inl hc) value, rest)
    else do
      store size sp
      let (value, rest) ← storeValue sep size (sp + 1) dp
      .ok (.cons c (mt .inl hc) value, rest)

section
variable (hooks : Hooks) (sep : UInt8) (flag size : Nat)

def storeEntry (s : ImportState) : Except Fault (ImportState × Bool) := do
  let dp ← skipBlanks s.dp
  if dp.head? = some chHash then
    let dp ← skipComment sep dp
    .ok ({ s with dp := dp }, true)
  else
    let (name, dp) ← parseName sep dp
    let offset := size - dp.length
    if ← isDeletion sep dp then
      if dp.head? = some chEquals then
        store size offset
        store size (offset + 1)
      else store size offset
      let dp := if dp.head? = some chEquals then dp.drop 2 else dp.drop 1
      let (listed, vars) := dropVarFromSet name s.vars
      if listed then .ok (⟨(hdeleteR hooks name flag s.htab).2.2, vars, dp⟩, true)
      else .ok (⟨s.htab, vars, dp⟩, true)
    else
      store size offset
      let (value, dp) ← storeValue sep size (offset + 1) dp.tail
      if name = .nil then .ok ({ s with dp := dp }, false)
      else
        let (listed, vars) := dropVarFromSet name s.vars
        if listed then
          .ok (⟨(hsearchR hooks name (some value) .enter flag s.htab).htab, vars, dp⟩, true)
        else .ok (⟨s.htab, vars, dp⟩, true)

def storeLoop : Nat → ImportState → Except Fault (ImportState × Bool)
  | 0, s => .ok (s, true)
  | fuel + 1, s => do
    let (s, more) ← storeEntry hooks sep flag size s
    if more ∧ s.dp.headD 0 ≠ 0 then storeLoop fuel s else .ok (s, more)

end

def storeImport (hooks : Hooks) (sep : UInt8) (flag : Nat) (env : List UInt8) (vars : List CString)
    (htab : Option Htab) : Except Fault (Nat × Option Htab) :=
  let htab := if flag.testBit 0 then htab else none
  match htab.or (hcreateR (importEntries env.length) none) with
  | none => .ok (0, none)
  | some htab => do
    let (s, done) ←
      storeLoop hooks sep flag env.length (env.length + 1) ⟨htab, vars.map some, env⟩
    if done then
      let drop htab : Option CString → Htab
        | none => htab
        | some name => (hdeleteR hooks name flag htab).2.2
      .ok (1, some (s.vars.foldl drop s.htab))
    else .ok (0, some s.htab)

variable {hooks : Hooks} {sep : UInt8} {flag size : Nat}

@[simp] theorem store_of_lt (h : offset < size) : store size offset = .ok () :=
  if_pos h

theorem storeValue_eq (h : sp + dp.length ≤ size) :
    storeValue sep size sp dp = parseValue sep dp := by
  fun_induction parseValue sep dp generalizing sp with
  | case1 => rfl
  | case2 c dp hc =>
    have hsp : sp < size := by simp at h; omega
    simp [storeValue, hc, hsp, bind, Except.bind]
  | case3 hc => simp [storeValue, hc]
  | case4 d dp hd hc ih =>
    have hsp : sp < size := by simp at h; omega
    rw [storeValue, dif_neg hc, if_pos rfl]
    simp only [hd, ne_eq, not_false_eq_true, ↓reduceDIte]
    rw [store_of_lt hsp, ih (by simp at h; omega)]
    rfl
  | case5 d dp hd hc ih =>
    have hsp : sp < size := by simp at h; omega
    rw [storeValue, dif_neg hc, if_pos rfl]
    simp only [hd, ↓reduceDIte]
    rw [store_of_lt hsp, ih (by simp at h ⊢; omega)]
    rfl
  | case6 c dp hc hb ih =>
    have hsp : sp < size := by simp at h; omega
    rw [storeValue, dif_neg hc, if_neg hb, store_of_lt hsp, ih (by simp at h; omega)]
    rfl

/-! ## What the parts of an entry take -/

abbrev Stop (sep c : UInt8) : Prop := c = 0 ∨ c = sep

inductive ValueText (sep : UInt8) : List UInt8 → Prop
  | stop (hc : Stop sep c) : ValueText sep [c]
  | plain (hc : ¬ Stop sep c) (hb : c ≠ chBackslash) (h : ValueText sep text) :
      ValueText sep (c :: text)
  | escaped (hc : ¬ Stop sep chBackslash) (hd : d ≠ 0) (h : ValueText sep text) :
      ValueText sep (chBackslash :: d :: text)
  | last (hc : ¬ Stop sep chBackslash) : ValueText sep [chBackslash, 0]

inductive NameAt (sep : UInt8) : List UInt8 → List UInt8 → List UInt8 → Prop
  | intro (hb : ∀ c ∈ blanks, isblank c) (hn : ∀ c ∈ name, c ≠ chEquals ∧ ¬ Stop sep c)
      (hc : ∀ c ∈ (name ++ rest).head?, isblank c = false ∧ c ≠ chHash) :
      NameAt sep (blanks ++ (name ++ rest)) name rest

/-- The first entry of some bytes, with the bytes after it; `false` is an empty
key. -/
inductive Takes (sep : UInt8) : List UInt8 → List UInt8 → Bool → Prop
  | comment (hb : ∀ c ∈ blanks, isblank c) (hh : (body ++ [t]).head? = some chHash)
      (hc : ∀ c ∈ body, ¬ Stop sep c) (ht : Stop sep t) :
      Takes sep (blanks ++ (body ++ t :: next)) next true
  | nul (h : NameAt sep dp name (0 :: next)) : Takes sep dp next true
  | separator (h : NameAt sep dp name (sep :: d :: next)) (hs : sep ≠ chEquals) :
      Takes sep dp (d :: next) true
  | emptied (h : NameAt sep dp name (chEquals :: d :: next)) (hd : Stop sep d ∨ sep = chEquals) :
      Takes sep dp next true
  | valued (h : NameAt sep dp name (chEquals :: (value ++ next))) (hs : sep ≠ chEquals)
      (hv : ValueText sep value) (hc : ∀ c ∈ value.head?, ¬ Stop sep c) :
      Takes sep dp next (name ≠ [])

/-- Complete entries up to the end, up to a `NUL` where an entry would begin,
or up to an empty key. -/
inductive Complete (sep : UInt8) : List UInt8 → Prop
  | last (h : Takes sep dp next more) (hl : more = false ∨ next.headD 0 = 0) : Complete sep dp
  | more (h : Takes sep dp next true) (hn : next.headD 0 ≠ 0) (hm : Complete sep next) :
      Complete sep dp

theorem skipBlanks_append (hb : ∀ c ∈ blanks, isblank c)
    (hr : ∃ c ∈ rest.head?, isblank c = false) : skipBlanks (blanks ++ rest) = .ok rest := by
  induction blanks with
  | nil =>
    obtain ⟨c, hc, hblank⟩ := hr
    rw [eq_cons_of_mem_head? hc]
    simp [skipBlanks, hblank]
  | cons b blanks ih =>
    rw [forall_mem_cons] at hb
    simpa [skipBlanks, hb.1] using ih hb.2

theorem skipBlanks_eq_ok (h : skipBlanks dp = .ok rest) : ∃ blanks, dp = blanks ++ rest ∧
    (∀ c ∈ blanks, isblank c) ∧ ∃ c ∈ rest.head?, isblank c = false := by
  induction dp with
  | nil => cases h
  | cons c dp ih =>
    rw [skipBlanks] at h
    split at h
    next hc =>
      obtain ⟨blanks, rfl, hb, hr⟩ := ih h
      exact ⟨c :: blanks, rfl, forall_mem_cons.mpr ⟨hc, hb⟩, hr⟩
    next hc =>
      cases h
      exact ⟨[], rfl, by simp, c, rfl, by simpa using hc⟩

theorem skipComment_append (hb : ∀ c ∈ body, ¬ Stop sep c) (ht : Stop sep t) :
    skipComment sep (body ++ t :: rest) = .ok rest := by
  induction body with
  | nil => exact if_neg (not_and_or.mpr (by simpa using ht))
  | cons b body ih =>
    rw [forall_mem_cons] at hb
    rw [cons_append, skipComment, if_pos (not_or.mp hb.1), ih hb.2]

theorem skipComment_eq_ok (h : skipComment sep dp = .ok rest) : ∃ body t, dp = body ++ t :: rest ∧
      (∀ c ∈ body, ¬ Stop sep c) ∧ Stop sep t := by
  induction dp with
  | nil => cases h
  | cons c dp ih =>
    rw [skipComment] at h
    split at h
    next hc =>
      obtain ⟨body, t, rfl, hb, ht⟩ := ih h
      exact ⟨c :: body, t, rfl, forall_mem_cons.mpr ⟨not_or.mpr hc, hb⟩, ht⟩
    next hc =>
      cases h
      exact ⟨[], c, rfl, by simp, by rw [Stop]; tauto⟩

theorem parseName_append (hz : 0 ∉ name) (hn : ∀ c ∈ name, c ≠ chEquals ∧ ¬ Stop sep c)
    (hr : ∃ c ∈ rest.head?, c = chEquals ∨ Stop sep c) :
    parseName sep (name ++ rest) = .ok (⟨name, hz⟩, rest) := by
  induction name with
  | nil =>
    obtain ⟨c, hc, hstop⟩ := hr
    rw [nil_append, eq_cons_of_mem_head? hc, parseName, dif_neg (by tauto)]
    rfl
  | cons b name ih =>
    rw [forall_mem_cons, not_or] at hn
    rw [cons_append, parseName, dif_pos hn.1,
      ih (fun h => hz (mem_cons_of_mem _ h)) hn.2]
    rfl

theorem parseName_eq_ok (h : parseName sep dp = .ok (name, rest)) : dp = name.val ++ rest ∧
      (∀ c ∈ name.val, c ≠ chEquals ∧ ¬ Stop sep c) ∧
      ∃ c ∈ rest.head?, c = chEquals ∨ Stop sep c := by
  induction dp generalizing name with
  | nil => cases h
  | cons c dp ih =>
    rw [parseName] at h
    split at h
    next hc =>
      obtain ⟨⟨name', rest'⟩, hp, heq⟩ := bind_eq_ok.mp h
      cases heq
      obtain ⟨rfl, hn, hr⟩ := ih hp
      exact ⟨rfl, forall_mem_cons.mpr ⟨⟨hc.1, not_or.mpr hc.2⟩, hn⟩, hr⟩
    next hc =>
      cases h
      exact ⟨rfl, by simp [CString.nil], c, by simp, by rw [Stop]; tauto⟩

theorem ValueText.of_parseValue (h : parseValue sep dp = .ok (value, rest)) :
    ∃ text, dp = text ++ rest ∧ ValueText sep text := by
  fun_induction parseValue sep dp generalizing value with
  | case1 => simp at h
  | case2 c dp hc =>
    cases h
    exact ⟨[c], rfl, .stop hc⟩
  | case3 hc => simp at h
  | case4 d dp hd hc ih =>
    obtain ⟨r, hp, hr⟩ := bind_eq_ok.mp h
    cases hr
    obtain ⟨text, rfl, ht⟩ := ih hp
    exact ⟨_, rfl, .escaped hc hd ht⟩
  | case5 d dp hd hc ih =>
    obtain rfl : d = 0 := not_not.mp hd
    obtain ⟨r, hp, hr⟩ := bind_eq_ok.mp h
    cases hr
    rw [parseValue, dif_pos (.inl rfl)] at hp
    cases hp
    exact ⟨[chBackslash, 0], rfl, .last hc⟩
  | case6 c dp hc hb ih =>
    obtain ⟨r, hp, hr⟩ := bind_eq_ok.mp h
    cases hr
    obtain ⟨text, rfl, ht⟩ := ih hp
    exact ⟨_, rfl, .plain hc hb ht⟩

theorem ValueText.ne_nil (h : ValueText sep text) : text ≠ [] := by
  cases h <;> simp

theorem ValueText.parseValue (h : ValueText sep text) (rest : List UInt8) :
    ∃ value, parseValue sep (text ++ rest) = .ok (value, rest) := by
  induction h with
  | stop hc => exact ⟨.nil, by simp [Env.parseValue, show _ ∨ _ from hc]⟩
  | plain hc hb _ ih =>
    obtain ⟨value, hv⟩ := ih
    exact ⟨_, by rw [cons_append, Env.parseValue, dif_neg hc, if_neg hb, hv]; rfl⟩
  | escaped hc hd _ ih =>
    obtain ⟨value, hv⟩ := ih
    refine ⟨.cons _ hd value, ?_⟩
    rw [cons_append, cons_append, Env.parseValue, dif_neg hc, if_pos rfl]
    simp only [hd, ne_eq, not_false_eq_true, ↓reduceDIte, hv]
    rfl
  | last hc =>
    refine ⟨.cons chBackslash (by decide) .nil, ?_⟩
    simp [Env.parseValue, show ¬ (_ ∨ _) from hc, bind, Except.bind]

/-! ## An entry -/

theorem skipBlanks_length (h : skipBlanks dp = .ok rest) : rest.length ≤ dp.length := by
  obtain ⟨blanks, rfl, -⟩ := skipBlanks_eq_ok h
  simp

theorem parseName_length (h : parseName sep dp = .ok (name, rest)) :
    rest ≠ [] ∧ rest.length ≤ dp.length := by
  obtain ⟨rfl, -, c, hc, -⟩ := parseName_eq_ok h
  refine ⟨?_, by simp⟩
  rintro rfl
  simp at hc

theorem isDeletion_length (h : isDeletion sep dp = .ok true) (he : dp.head? = some chEquals) :
    2 ≤ dp.length := by
  match dp, he with
  | [c], he =>
    obtain rfl : c = chEquals := by simpa using he
    exact absurd h (by simp [isDeletion, show chEquals ≠ 0 by decide])
  | _ :: _ :: _, _ => simp

theorem storeEntry_eq (h : s.dp.length ≤ size) :
    storeEntry hooks sep flag size s = importEntry hooks sep flag s := by
  unfold storeEntry importEntry
  refine bind_congr_ok fun dp hdp => ?_
  split
  · rfl
  refine bind_congr_ok fun r hr => ?_
  obtain ⟨name, dp'⟩ := r
  have hlen : dp' ≠ [] ∧ dp'.length ≤ size :=
    ⟨(parseName_length hr).1, (parseName_length hr).2.trans ((skipBlanks_length hdp).trans h)⟩
  refine bind_congr_ok fun deletion hd => ?_
  have hpos : 0 < dp'.length := length_pos_iff.mpr hlen.1
  have hfirst : size - dp'.length < size := by omega
  cases deletion with
  | true =>
    simp only [store_of_lt hfirst]
    by_cases he : dp'.head? = some chEquals
    · have hsecond : size - dp'.length + 1 < size := by
        have := isDeletion_length hd he
        omega
      simp [he, store_of_lt hsecond, bind, Except.bind]
    · simp [he, bind, Except.bind]
  | false =>
    have hvalue : size - dp'.length + 1 + dp'.tail.length ≤ size := by
      rw [length_tail]
      omega
    simp only [store_of_lt hfirst, storeValue_eq hvalue]
    rfl

theorem Takes.of_deletion (hat : NameAt sep dp name rest)
    (hend : ∃ c ∈ rest.head?, c = chEquals ∨ Stop sep c) (hd : isDeletion sep rest = .ok true) :
    Takes sep dp (if rest.head? = some chEquals then rest.drop 2 else rest.drop 1) true := by
  match rest with
  | [] => simp at hend
  | [c] =>
    by_cases hc : c = 0
    · subst hc
      exact .nul hat
    · simp [isDeletion, hc] at hd
  | c :: d :: next =>
    by_cases he : c = chEquals
    · subst he
      refine .emptied hat ?_
      have := hd
      simp [isDeletion] at this
      tauto
    · simp only [head?_cons, Option.some.injEq, he, ↓reduceIte]
      obtain rfl | rfl : Stop sep c := by simpa [he] using hend
      · exact .nul hat
      · exact .separator hat he

theorem Takes.of_value (hat : NameAt sep dp name rest)
    (hend : ∃ c ∈ rest.head?, c = chEquals ∨ Stop sep c) (hd : isDeletion sep rest = .ok false)
    (hv : parseValue sep rest.tail = .ok (value, next)) : Takes sep dp next (name ≠ []) := by
  match rest with
  | [] => simp at hend
  | [c] => by_cases hc : c = 0 <;> simp [isDeletion, hc] at hd
  | c :: d :: rest =>
    have hstop : ¬ Stop sep c ∧ ¬ Stop sep d := by
      simp [isDeletion] at hd
      tauto
    obtain rfl : c = chEquals := by simpa [hstop.1] using hend
    obtain ⟨text, htext, ht⟩ := ValueText.of_parseValue hv
    have htext : d :: rest = text ++ next := htext
    rw [htext] at hat
    refine .valued hat (fun he => hstop.1 (.inr he.symm)) ht ?_
    intro c hc
    have hhead : (text ++ next).head? = some c := by rw [head?_append, hc]; rfl
    obtain rfl : d = c := by simpa [← htext] using hhead
    exact hstop.2

theorem Takes.of_importEntry (h : importEntry hooks sep flag s = .ok (s', more)) :
    Takes sep s.dp s'.dp more := by
  unfold importEntry at h
  obtain ⟨dp, hdp, hentry⟩ := bind_eq_ok.mp h
  obtain ⟨blanks, hs, hb, b, hhead, hblank⟩ := skipBlanks_eq_ok hdp
  rw [hs]
  split at hentry
  next hhash =>
    obtain ⟨next, hnext, hr⟩ := bind_eq_ok.mp hentry
    cases hr
    obtain ⟨body, t, rfl, hbody, ht⟩ := skipComment_eq_ok hnext
    exact .comment hb (by cases body <;> simpa using hhash) hbody ht
  next hhash =>
    obtain ⟨⟨name, rest⟩, hname, hnamed⟩ := bind_eq_ok.mp hentry
    obtain ⟨rfl, hn, hend⟩ := parseName_eq_ok hname
    have hat : NameAt sep (blanks ++ (name.val ++ rest)) name.val rest :=
      .intro hb hn fun c hc => ⟨Option.mem_unique hhead hc ▸ hblank, fun he => hhash (he ▸ hc)⟩
    obtain ⟨deletion, hd, hkind⟩ := bind_eq_ok.mp hnamed
    cases deletion with
    | true =>
      have hmore : s'.dp = (if rest.head? = some chEquals then rest.drop 2 else rest.drop 1) ∧
          more = true := by
        simp only [↓reduceIte] at hkind
        split at hkind <;> cases hkind <;> exact ⟨rfl, rfl⟩
      rw [hmore.1, hmore.2]
      exact .of_deletion hat hend hd
    | false =>
      obtain ⟨⟨value, next⟩, hv, hvalued⟩ := bind_eq_ok.mp hkind
      have hmore : s'.dp = next ∧ more = decide (name.val ≠ []) := by
        dsimp only at hvalued
        split at hvalued
        next hnil => cases hvalued; simp [hnil, CString.nil]
        next hnil =>
          have : name.val ≠ [] := fun he => hnil (Subtype.ext he)
          split at hvalued <;> cases hvalued <;> simp [this]
      rw [hmore.1, hmore.2]
      exact .of_value hat hend hd hv

theorem NameAt.importEntry (h : NameAt sep s.dp name rest)
    (hend : ∃ c ∈ rest.head?, c = chEquals ∨ Stop sep c) (hd : isDeletion sep rest = .ok deletion)
    (hnext : if deletion then
        next = if rest.head? = some chEquals then rest.drop 2 else rest.drop 1
      else ∃ value, parseValue sep rest.tail = .ok (value, next)) :
    ∃ s', importEntry hooks sep flag s = .ok (s', deletion || decide (name ≠ [])) ∧
      s'.dp = next := by
  generalize hs : s.dp = dp at h
  obtain ⟨hb, hn, hfresh⟩ := h
  rename_i blanks
  have hz : (0 : UInt8) ∉ name := fun hz => (hn 0 hz).2 (.inl rfl)
  have hskip : skipBlanks s.dp = .ok (name ++ rest) := by
    obtain ⟨c, hc⟩ : ∃ c, c ∈ (name ++ rest).head? := by
      obtain ⟨c, hc, -⟩ := hend
      cases name with
      | nil => exact ⟨c, hc⟩
      | cons b name => exact ⟨b, rfl⟩
    rw [hs, skipBlanks_append hb ⟨c, hc, (hfresh c hc).1⟩]
  have hhash : ¬ (name ++ rest).head? = some chHash := fun he => (hfresh _ he).2 rfl
  have hname : parseName sep (name ++ rest) = .ok (⟨name, hz⟩, rest) :=
    parseName_append hz hn hend
  cases deletion with
  | true =>
    simp only [Env.importEntry, hskip, hhash, hname, hd, bind, Except.bind, ↓reduceIte]
    split <;> exact ⟨_, rfl, hnext.symm⟩
  | false =>
    obtain ⟨value, hv⟩ := hnext
    simp only [Env.importEntry, hskip, hhash, hname, hd, hv, bind, Except.bind, ↓reduceIte,
      Bool.false_eq_true]
    split
    next hnil =>
      obtain rfl : name = [] := congrArg Subtype.val hnil
      exact ⟨_, rfl, rfl⟩
    next hnil =>
      have : name ≠ [] := fun he => hnil (Subtype.ext he)
      simp only [this, ne_eq, not_false_eq_true, decide_true, Bool.or_true]
      split <;> exact ⟨_, rfl, rfl⟩

theorem Takes.importEntry (h : Takes sep s.dp next more) (hooks : Hooks)
    (flag : Nat) : ∃ s', importEntry hooks sep flag s = .ok (s', more) ∧ s'.dp = next := by
  generalize hs : s.dp = dp at h
  cases h with
  | comment hb hh hc ht =>
    rename_i blanks body t
    have hbody : (body ++ t :: next).head? = some chHash := by cases body <;> simpa using hh
    have hskip : skipBlanks s.dp = .ok (body ++ t :: next) :=
      hs ▸ skipBlanks_append hb ⟨_, hbody, by decide⟩
    have hcomment : skipComment sep (body ++ t :: next) = .ok next :=
      skipComment_append hc ht
    simp only [Env.importEntry, hskip, hbody, hcomment, bind, Except.bind, ↓reduceIte]
    exact ⟨_, rfl, rfl⟩
  | nul h =>
    have hd : isDeletion sep (0 :: next) = .ok true := by cases next <;> simp [isDeletion]
    exact (hs ▸ h).importEntry ⟨0, rfl, .inr (.inl rfl)⟩ hd
      (by simp [show (0 : UInt8) ≠ chEquals by decide])
  | separator h hsep =>
    rename_i d next
    have hd : isDeletion sep (sep :: d :: next) = .ok true := by simp [isDeletion]
    exact (hs ▸ h).importEntry ⟨sep, rfl, .inr (.inr rfl)⟩ hd (by simp [hsep])
  | emptied h hd =>
    have hdel : ∀ d : UInt8, Stop sep d ∨ sep = chEquals →
        isDeletion sep (chEquals :: d :: next) = .ok true := by
      intro d hd
      simp [isDeletion]
      tauto
    exact (hs ▸ h).importEntry ⟨chEquals, by simp⟩ (hdel _ hd) (by simp)
  | valued h hsep hv hc =>
    rename_i name value
    obtain ⟨d, text, rfl⟩ := exists_cons_of_ne_nil hv.ne_nil
    have hd : ¬ Stop sep d := hc d (by simp)
    have hdel : isDeletion sep (chEquals :: (d :: text ++ next)) = .ok false := by
      simp [isDeletion, Ne.symm hsep]
      tauto
    exact (hs ▸ h).importEntry ⟨chEquals, by simp⟩ hdel (by simpa using hv.parseValue next)

/-! ## The whole import -/

theorem NameAt.length_le (h : NameAt sep dp name rest) : rest.length ≤ dp.length := by
  cases h
  simp only [length_append]
  omega

theorem Takes.length_lt (h : Takes sep dp next more) :
    next.length < dp.length := by
  cases h with
  | comment => simp; omega
  | nul h => simpa using h.length_le
  | separator h => simpa using h.length_le
  | emptied h =>
    have := h.length_le
    simp at this
    omega
  | valued h =>
    have := h.length_le
    simp at this
    omega

theorem storeLoop_eq (h : s.dp.length ≤ size) (fuel : Nat) :
    storeLoop hooks sep flag size fuel s = importLoop hooks sep flag fuel s := by
  induction fuel generalizing s with
  | zero => rfl
  | succ fuel ih =>
    rw [storeLoop, importLoop, storeEntry_eq h]
    refine bind_congr_ok fun r hr => ?_
    obtain ⟨s', more⟩ := r
    dsimp only
    rw [ih ((Takes.of_importEntry hr).length_lt.le.trans h)]

theorem importLoop_fuel (h : s.dp.length < fuel) :
    importLoop hooks sep flag fuel s = importLoop hooks sep flag (s.dp.length + 1) s := by
  induction fuel using Nat.strong_induction_on generalizing s with
  | _ fuel ih =>
    obtain ⟨fuel, rfl⟩ := Nat.exists_eq_add_of_le' (Nat.one_le_of_lt h)
    rw [importLoop, importLoop]
    refine bind_congr_ok fun r hr => ?_
    obtain ⟨s', more⟩ := r
    have hlt : s'.dp.length < s.dp.length := (Takes.of_importEntry hr).length_lt
    dsimp only
    rw [ih fuel (by omega) (by omega)]
    by_cases hfuel : s.dp.length < fuel
    · rw [ih s.dp.length (by omega) hlt]
    · rw [show s.dp.length = fuel by omega, ih fuel (by omega) (by omega)]

theorem Complete.of_importLoop (hf : s.dp.length < fuel)
    (h : ∃ r, importLoop hooks sep flag fuel s = .ok r) : Complete sep s.dp := by
  induction fuel generalizing s with
  | zero => omega
  | succ fuel ih =>
    obtain ⟨r, hr⟩ := h
    obtain ⟨⟨s', more⟩, hentry, hrest⟩ := bind_eq_ok.mp hr
    have htakes := Takes.of_importEntry hentry
    dsimp only at hrest
    split at hrest
    next hmore =>
      rw [hmore.1] at htakes
      have hlt := htakes.length_lt
      exact .more htakes hmore.2 (ih (by omega) ⟨r, hrest⟩)
    next hmore => exact .last htakes (by cases more <;> simp_all)

theorem Complete.importLoop (hf : s.dp.length < fuel) (h : Complete sep s.dp) :
    ∃ r, importLoop hooks sep flag fuel s = .ok r := by
  generalize hs : s.dp = dp at h
  induction h generalizing s fuel with
  | last h hl =>
    obtain ⟨fuel, rfl⟩ := Nat.exists_eq_add_of_le' (Nat.one_le_of_lt hf)
    obtain ⟨s', hentry, hs'⟩ := (hs ▸ h).importEntry hooks flag
    rw [Env.importLoop, hentry]
    refine ⟨_, if_neg ?_⟩
    rw [hs']
    rintro ⟨hm, hn⟩
    exact hl.elim (fun hf => by simp [hf] at hm) hn
  | more h hn _ ih =>
    obtain ⟨fuel, rfl⟩ := Nat.exists_eq_add_of_le' (Nat.one_le_of_lt hf)
    obtain ⟨s', hentry, hs'⟩ := (hs ▸ h).importEntry hooks flag
    have hlt := h.length_lt
    rw [← hs, ← hs'] at hlt
    have hfuel : s'.dp.length < fuel := by omega
    obtain ⟨r, hr⟩ := ih hfuel hs'
    rw [Env.importLoop, hentry]
    exact ⟨r, (if_pos ⟨rfl, hs' ▸ hn⟩).trans hr⟩

theorem import_table (flag size : Nat) (htab : Option Htab) :
    ∃ new, (if flag.testBit 0 then htab else none).or (hcreateR (importEntries size) none) =
      some new := by
  obtain ⟨new, hnew, -⟩ := hcreateR_importEntries size
  rw [hnew]
  cases (if flag.testBit 0 then htab else none) with
  | none => exact ⟨new, rfl⟩
  | some htab => exact ⟨htab, rfl⟩

/-- The import ends, and it keeps to its copy exactly for complete entries. -/
theorem storeImport_inBounds_iff (hooks : Hooks) (sep : UInt8) (flag : Nat) (env : List UInt8)
    (vars : List CString) (htab : Option Htab) :
    (∀ s : ImportState, s.dp = env → ∀ fuel, env.length < fuel →
      storeLoop hooks sep flag env.length fuel s =
        storeLoop hooks sep flag env.length (env.length + 1) s) ∧
    ((∃ r, storeImport hooks sep flag env vars htab = .ok r) ↔ Complete sep env) := by
  constructor
  · rintro s rfl fuel hf
    rw [storeLoop_eq le_rfl, storeLoop_eq le_rfl, importLoop_fuel hf]
  · obtain ⟨new, hnew⟩ := import_table flag env.length htab
    have hloop : (∃ r, storeImport hooks sep flag env vars htab = .ok r) ↔
        ∃ r, importLoop hooks sep flag (env.length + 1) ⟨new, vars.map some, env⟩ = .ok r := by
      unfold storeImport
      simp only [hnew, storeLoop_eq (s := ⟨new, vars.map some, env⟩) le_rfl]
      cases importLoop hooks sep flag (env.length + 1) ⟨new, vars.map some, env⟩ with
      | error e => simp [bind, Except.bind]
      | ok r =>
        simp only [bind, Except.bind, Except.ok.injEq, exists_eq']
        split <;> simp
    rw [hloop]
    exact ⟨fun h => Complete.of_importLoop (Nat.lt_succ_self _) h,
      fun h => Complete.importLoop (s := ⟨new, vars.map some, env⟩) (Nat.lt_succ_self _) h⟩

theorem storeImport_leaves_copy :
    ¬ (storeImport noHooks chNewline 0 [] [] none).isOk ∧
      ¬ (storeImport noHooks chNewline 0 [97, chNewline] [] none).isOk ∧
      ¬ (storeImport noHooks 0 0 [97, chEquals, 98] [] none).isOk := by
  decide +kernel

end UBoot.Env
