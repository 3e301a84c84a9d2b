import UBoot.Env.RoundTrip

/-!
# Looking variables up before and after relocation

Before relocation `getenv_f` of `common/cmd_nvedit.c` scans the bytes of the stored
environment, without removing escapes; afterwards `getenv` searches the table that
`himport_r` made of them.
-/

namespace UBoot.Env

open List

/-! ## getenv_f and getenv -/

def envGetChar (env : List UInt8) (index : Nat) : Except Fault UInt8 :=
  match env[index]? with
  | some c => .ok c
  | none => .error .outOfBounds

/-- The index of the value if the names match. At the end of both strings the
comparison would go on behind the name. -/
def envmatch (env : List UInt8) : List UInt8 → Nat → Except Fault (Option Nat)
  | [], i2 => do
    let c ← envGetChar env i2
    if c = 0 then .error .outOfBounds
    else if c = chEquals then .ok (some (i2 + 1))
    else .ok none
  | s :: s1, i2 => do
    let c ← envGetChar env i2
    if s = c then
      if s = chEquals then .ok (some (i2 + 1)) else envmatch env s1 (i2 + 1)
    else .ok none

/-- The inner loop of `getenv_f`; `none` returns from the function. -/
def entryEnd (env : List UInt8) (envSize : Nat) : Nat → Nat → Except Fault (Option Nat)
  | 0, _ => .ok none
  | fuel + 1, nxt => do
    let c ← envGetChar env nxt
    if c = 0 then .ok (some nxt)
    else if envSize ≤ nxt then .ok none
    else entryEnd env envSize fuel (nxt + 1)

def copyValue (env : List UInt8) : Nat → Nat → Except Fault (List UInt8 × Bool)
  | 0, _ => .ok ([], false)
  | len + 1, val => do
    let c ← envGetChar env val
    if c = 0 then .ok ([c], true)
    else
      let (rest, ended) ← copyValue env len (val + 1)
      .ok (c :: rest, ended)

/-- The value `getenv_f` returns, and the bytes it leaves in `buf`. -/
structure Lookup where
  ret : Int
  buf : List UInt8
  deriving DecidableEq

def copyOut (env : List UInt8) (len val : Nat) : Except Fault Lookup := do
  let (buf, ended) ← copyValue env len val
  if ended then .ok ⟨buf.length - 1, buf⟩
  else if buf.length ≠ 0 then .ok ⟨buf.length, buf.dropLast ++ [0]⟩
  else .ok ⟨0, buf⟩

def getenvFLoop (env : List UInt8) (envSize : Nat) (name : CString) (len : Nat) :
    Nat → Nat → Except Fault Lookup
  | 0, _ => .ok ⟨-1, []⟩
  | fuel + 1, i => do
    let c ← envGetChar env i
    if c = 0 then .ok ⟨-1, []⟩
    else
      match ← entryEnd env envSize (envSize + 1) i with
      | none => .ok ⟨-1, []⟩
      | some nxt =>
        match ← envmatch env name.val i with
        | none => getenvFLoop env envSize name len fuel (nxt + 1)
        | some val => copyOut env len val

def getenvF (env : List UInt8) (envSize : Nat) (name : CString) (len : Nat) : Except Fault Lookup :=
  getenvFLoop env envSize name len (envSize + 1) 0

def getenv (hooks : Hooks) (htab : Htab) (name : CString) : Option CString :=
  (hsearchR hooks name none .find 0 htab).data

/-! ## Scanning one entry -/

theorem envGetChar_append (pre : List UInt8) (c : UInt8) (post : List UInt8) :
    envGetChar (pre ++ c :: post) pre.length = .ok c := by
  simp [envGetChar]

theorem entryEnd_string (pre s post : List UInt8) (hs : 0 ∉ s) (hfuel : s.length < fuel)
    (hsize : pre.length + s.length ≤ envSize) :
    entryEnd (pre ++ s ++ 0 :: post) envSize fuel pre.length =
      .ok (some (pre.length + s.length)) := by
  obtain ⟨fuel, rfl⟩ : ∃ n, fuel = n + 1 := ⟨fuel - 1, by omega⟩
  induction s generalizing pre fuel with
  | nil => simp [entryEnd, envGetChar_append, bind, Except.bind]
  | cons c s ih =>
    simp only [mem_cons, not_or, length_cons] at hs hfuel hsize
    obtain ⟨fuel, rfl⟩ : ∃ n, fuel = n + 1 := ⟨fuel - 1, by omega⟩
    have ih := ih (pre ++ [c]) hs.2 (by simp; omega) fuel (by omega)
    rw [append_assoc, cons_append, entryEnd, envGetChar_append]
    simp only [bind, Except.bind, Ne.symm hs.1, ↓reduceIte]
    rw [if_neg (by omega)]
    simpa [Nat.add_assoc, Nat.add_comm 1] using ih

theorem envmatch_entry (pre key name post : List UInt8) (hkey : chEquals ∉ key)
    (hkey0 : 0 ∉ key) (hname : chEquals ∉ name) (hname0 : 0 ∉ name) :
    envmatch (pre ++ key ++ chEquals :: post) name pre.length =
      .ok (if name = key then some (pre.length + key.length + 1) else none) := by
  induction name generalizing pre key with
  | nil =>
    cases key with
    | nil =>
      have h0 : chEquals ≠ 0 := by decide
      simp [envmatch, envGetChar_append, bind, Except.bind, h0]
    | cons c key =>
      simp only [mem_cons, not_or] at hkey hkey0
      rw [append_assoc, cons_append, envmatch, envGetChar_append]
      simp [bind, Except.bind, Ne.symm hkey.1, Ne.symm hkey0.1]
  | cons s name ih =>
    simp only [mem_cons, not_or] at hname hname0
    cases key with
    | nil =>
      rw [append_nil, envmatch, envGetChar_append]
      simp [bind, Except.bind, Ne.symm hname.1]
    | cons c key =>
      simp only [mem_cons, not_or] at hkey hkey0
      have ih := ih (pre ++ [c]) key hkey.2 hkey0.2 hname.2 hname0.2
      rw [append_assoc, cons_append, envmatch, envGetChar_append]
      simp only [bind, Except.bind]
      split
      · rename_i hsc
        subst hsc
        rw [if_neg (Ne.symm hname.1)]
        simpa [Nat.add_assoc, Nat.add_comm 1] using ih
      · rename_i hsc
        simp [hsc]

theorem copyValue_string (len : Nat) (pre s post : List UInt8) (hs : 0 ∉ s) :
    copyValue (pre ++ s ++ 0 :: post) len pre.length =
      .ok (if s.length < len then (s ++ [0], true) else (s.take len, false)) := by
  induction s generalizing pre len with
  | nil =>
    cases len with
    | zero => simp [copyValue]
    | succ len => simp [copyValue, envGetChar_append, bind, Except.bind]
  | cons c s ih =>
    cases len with
    | zero => simp [copyValue]
    | succ len =>
      simp only [mem_cons, not_or] at hs
      have ih := ih len (pre ++ [c]) hs.2
      simp only [length_append, length_singleton, append_assoc,
        cons_append, nil_append] at ih
      rw [append_assoc, cons_append, copyValue, envGetChar_append]
      simp only [bind, Except.bind, Ne.symm hs.1, ↓reduceIte, ih, length_cons,
        Nat.add_lt_add_iff_right]
      split <;> simp

def copied (len : Nat) (s : List UInt8) : Lookup :=
  if s.length < len then ⟨s.length, s ++ [0]⟩
  else if len ≠ 0 then ⟨len, (s.take len).dropLast ++ [0]⟩
  else ⟨0, []⟩

theorem copyOut_string (len : Nat) (pre s post : List UInt8) (hs : 0 ∉ s) :
    copyOut (pre ++ s ++ 0 :: post) len pre.length = .ok (copied len s) := by
  simp only [copyOut, copyValue_string len pre s post hs, bind, Except.bind, copied]
  split
  · simp
  · rename_i hlen
    cases len with
    | zero => simp
    | succ len =>
      have hmin : min (len + 1) s.length = len + 1 := by omega
      simp [hmin]

theorem nul_notMem_escape (hs : 0 ∉ s) : 0 ∉ escape sep s := by
  simp only [escape, mem_flatMap, not_exists, not_and]
  intro c hc h
  have hne : c ≠ 0 := fun h0 => hs (h0 ▸ hc)
  split at h
  · simp [Ne.symm hne] at h
    exact absurd h (by decide)
  · simp [Ne.symm hne] at h

/-! ## Scanning the environment -/

theorem getenvFLoop_entries (fuel envSize len : Nat) (pre : List UInt8) (es : List Pair)
    (post : List UInt8)
    (he : ∀ e ∈ es, Importable 0 e) (hname : chEquals ∉ name.val) (hfuel : es.length < fuel)
    (hsize : pre.length + (es.flatMap (entryBytes 0)).length ≤ envSize) :
    getenvFLoop (pre ++ es.flatMap (entryBytes 0) ++ 0 :: post) envSize name len fuel pre.length =
      .ok (match es.find? (·.1 = name) with
        | none => ⟨-1, []⟩
        | some e => copied len (escape 0 e.2.val)) := by
  obtain ⟨fuel, rfl⟩ : ∃ n, fuel = n + 1 := ⟨fuel - 1, by omega⟩
  induction es generalizing pre fuel with
  | nil => simp [getenvFLoop, envGetChar_append, bind, Except.bind]
  | cons e es ih =>
    have hent := he e (by simp)
    obtain ⟨key, value⟩ := e
    simp only [flatMap_cons, length_append, length_cons] at hsize hfuel
    obtain ⟨fuel, rfl⟩ : ∃ n, fuel = n + 1 := ⟨fuel - 1, by omega⟩
    -- the entry as a string, followed by the rest of the environment
    let string := key.val ++ chEquals :: escape 0 value.val
    let rest := es.flatMap (entryBytes 0) ++ 0 :: post
    have hbytes : entryBytes 0 (key, value) = string ++ [0] := by simp [entryBytes, string]
    have henv : pre ++ (entryBytes 0 (key, value) ++ es.flatMap (entryBytes 0)) ++ 0 :: post =
        pre ++ string ++ 0 :: rest := by simp [hbytes, rest]
    have hnul : 0 ∉ string := by
      have h0 : (0 : UInt8) ≠ chEquals := by decide
      simpa [string, h0] using ⟨key.property, nul_notMem_escape value.property⟩
    have hlen : (entryBytes 0 (key, value)).length = string.length + 1 := by simp [hbytes]
    have hend : entryEnd (pre ++ string ++ 0 :: rest) envSize (envSize + 1) pre.length =
        .ok (some (pre.length + string.length)) :=
      entryEnd_string pre string rest hnul (by omega) (by omega)
    have hmatch : envmatch (pre ++ string ++ 0 :: rest) name.val pre.length =
        .ok (if name.val = key.val then some (pre.length + key.val.length + 1) else none) := by
      simpa [string] using envmatch_entry pre key.val name.val (escape 0 value.val ++ 0 :: rest)
        hent.key_equals key.property hname name.property
    have hfirst : ∃ c, envGetChar (pre ++ string ++ 0 :: rest) pre.length = .ok c ∧ c ≠ 0 := by
      cases hs : string with
      | nil => simp [string] at hs
      | cons c cs =>
        refine ⟨c, by simp [envGetChar], fun h0 => hnul ?_⟩
        simp [hs, h0]
    obtain ⟨c, hc, hc0⟩ := hfirst
    rw [flatMap_cons, henv, getenvFLoop, hc]
    simp only [bind, Except.bind, hc0, ↓reduceIte, hend, hmatch]
    by_cases hk : name = key
    · subst hk
      have hcopy := copyOut_string len (pre ++ name.val ++ [chEquals])
        (escape 0 value.val) rest (nul_notMem_escape value.property)
      simpa [string, Nat.add_assoc] using hcopy
    · have hkv : name.val ≠ key.val := fun h => hk (Subtype.ext h)
      have ih := ih (pre ++ entryBytes 0 (key, value)) (fun e h => he e (by simp [h]))
        (by simp only [length_append]; omega) fuel (by omega)
      simp only [hkv, ↓reduceIte]
      rw [← henv]
      simpa [hlen, Nat.add_assoc, Ne.symm hk] using ih

theorem getenvF_export {htab : Htab} (he : ∀ e ∈ htab.pairs, Importable 0 e)
    (hname : chEquals ∉ name.val) (hsize : (htab.exportBytes 0).length + n ≤ envSize) :
    getenvF (htab.exportBytes 0 ++ List.replicate n 0) envSize name len =
      .ok (match htab.sorted.find? (·.1 = name) with
        | none => ⟨-1, []⟩
        | some e => copied len (escape 0 e.2.val)) := by
  have hcount := htab.sorted_length_le 0
  have hlen : (htab.exportBytes 0).length = (htab.sorted.flatMap (entryBytes 0)).length + 1 := by
    simp [Htab.exportBytes]
  have h := getenvFLoop_entries (envSize + 1) envSize len [] htab.sorted
    (replicate n 0) (fun e h => he e (htab.sorted_perm.mem_iff.mp h)) hname (by omega)
    (by simp only [length_nil]; omega)
  simpa [getenvF, Htab.exportBytes] using h

theorem copied_ret (len : Nat) (s : List UInt8) : (copied len s).ret ≠ -1 := by
  unfold copied
  split
  · simp
  · split <;> simp

/-! ## Agreement -/

theorem getenv_eq_lookup (hooks : Hooks) (hr : Represents cap htab m) (name : CString) :
    getenv hooks htab name = m.lookup name := (hr.find hooks name 0).2

def LookupsAgree (hooks : Hooks) (env : List UInt8) (envSize : Nat) (htab : Htab) (name : CString)
    (len : Nat) : Prop :=
  ∃ r, getenvF env envSize name len = .ok r ∧ (r.ret = -1 ↔ getenv hooks htab name = none) ∧
    ∀ v, getenv hooks htab name = some v → v.val.length < len → r = ⟨v.val.length, v.val ++ [0]⟩

theorem exists_key_not_entered {htab : Htab} (hkeys : (htab.pairs.map Prod.fst).Nodup)
    (hr : Represents cap t m) (hfull : cap < htab.pairs.length) :
    ∃ e ∈ htab.pairs, m.lookup e.1 = none := by
  by_contra hall
  push Not at hall
  have hsub : (htab.pairs.map Prod.fst).toFinset ⊆ m.keys := by
    intro k hk
    obtain ⟨e, he, rfl⟩ := mem_map.mp (mem_toFinset.mp hk)
    rw [Finmap.mem_keys, Finmap.mem_iff]
    exact Option.ne_none_iff_exists'.mp (hall e he)
  have hcard := Finset.card_le_card hsub
  rw [toFinset_card_of_nodup hkeys, length_map] at hcard
  have := hr.card_le
  omega

theorem find_sorted (htab : Htab) (name : CString) :
    (∃ v, htab.Holds name v ∧ htab.sorted.find? (·.1 = name) = some (name, v)) ∨
      (∀ v, ¬ htab.Holds name v) ∧ htab.sorted.find? (·.1 = name) = none := by
  have hmem (e : Pair) : e ∈ htab.sorted ↔ htab.Holds e.1 e.2 := by
    rw [htab.sorted_perm.mem_iff, ← Htab.mem_pairs]
  cases hfind : htab.sorted.find? (·.1 = name) with
  | some e =>
    obtain ⟨key, v⟩ := e
    obtain rfl : key = name := by simpa using find?_some hfind
    exact .inl ⟨v, (hmem (key, v)).mp (mem_of_find?_eq_some hfind), rfl⟩
  | none =>
    refine .inr ⟨fun v hv => ?_, rfl⟩
    simpa using find?_eq_none.mp hfind (name, v) ((hmem (name, v)).mpr hv)

theorem escape_eq_self (h : chBackslash ∉ s) (hs : 0 ∉ s) : escape 0 s = s := by
  induction s with
  | nil => rfl
  | cons c s ih =>
    simp only [mem_cons, not_or] at h hs
    have hc : needsEscape 0 c = false := by simp [needsEscape, Ne.symm h.1, Ne.symm hs.1]
    have ih := ih h.2 hs.2
    simp only [escape] at ih ⊢
    simp [hc, ih]

section
variable {hooks : Hooks} {htab t : Htab} {m : EnvMap}

section
variable (he : ∀ e ∈ htab.pairs, Importable 0 e) (hr : Represents cap t m)
include he hr

theorem LookupsAgree.of_plain (hholds : ∀ k v, t.Holds k v ↔ htab.Holds k v)
    (hplain : ∀ k v, htab.Holds k v → chBackslash ∉ v.val)
    (hsize : (htab.exportBytes 0).length + n ≤ envSize) (hname : chEquals ∉ name.val) (len : Nat) :
    LookupsAgree hooks (htab.exportBytes 0 ++ List.replicate n 0) envSize t name len := by
  refine ⟨_, getenvF_export he hname hsize, ?_⟩
  rw [getenv_eq_lookup hooks hr]
  have hlookup (v : CString) : m.lookup name = some v ↔ htab.Holds name v := by
    rw [← hr.holds, hholds]
  rcases find_sorted htab name with ⟨v, hv, hfind⟩ | ⟨hnone, hfind⟩
  · have hl := (hlookup v).mpr hv
    rw [hfind, hl]
    refine ⟨by simpa using copied_ret len _, ?_⟩
    rintro w ⟨⟩ hlen
    simp [copied, escape_eq_self (hplain name v hv) v.property, hlen]
  · have hl : m.lookup name = none := by
      cases h : m.lookup name with
      | none => rfl
      | some v => exact absurd ((hlookup v).mp h) (hnone v)
    rw [hfind, hl]
    exact ⟨by simp, fun _ h => nomatch h⟩

theorem LookupsAgree.lookup_ne_none (hsize : (htab.exportBytes 0).length + n ≤ envSize)
    (hheld : htab.Holds k v)
    (ha : LookupsAgree hooks (htab.exportBytes 0 ++ List.replicate n 0) envSize t k len) :
    m.lookup k ≠ none := by
  intro hl
  obtain ⟨r, hget, hret, -⟩ := ha
  have hname := (he (k, v) (Htab.mem_pairs.mpr hheld)).key_equals
  rw [getenvF_export he hname hsize] at hget
  obtain rfl := Except.ok.inj hget
  rcases find_sorted htab k with ⟨w, hw, hfind⟩ | ⟨hnone, -⟩
  · rw [hfind, getenv_eq_lookup hooks hr] at hret
    exact copied_ret len _ (hret.mpr hl)
  · exact hnone v hheld

end

theorem LookupsAgree.plain (hmap : ∀ k v v', htab.Holds k v → htab.Holds k v' → v = v')
    (he : ∀ e ∈ htab.pairs, Importable 0 e) (hr : Represents cap t m)
    (hholds : ∀ k v, t.Holds k v ↔ htab.Holds k v)
    (hsize : (htab.exportBytes 0).length + n ≤ envSize) (hheld : htab.Holds k v)
    (ha : ∀ len, LookupsAgree hooks (htab.exportBytes 0 ++ List.replicate n 0) envSize t k len) :
    chBackslash ∉ v.val := by
  intro hb
  have hlen := escape_nul_length v.property
  have hpos : 0 < v.val.count chBackslash := count_pos_iff.mpr hb
  obtain ⟨r, hget, -, hval⟩ := ha ((escape 0 v.val).length + 1)
  have hname := (he (k, v) (Htab.mem_pairs.mpr hheld)).key_equals
  rw [getenvF_export he hname hsize] at hget
  obtain rfl := Except.ok.inj hget
  have hl : getenv hooks t k = some v := by
    rw [getenv_eq_lookup hooks hr, ← hr.holds, hholds]
    exact hheld
  have hval := hval v hl (by omega)
  rcases find_sorted htab k with ⟨w, hw, hfind⟩ | ⟨hnone, -⟩
  · obtain rfl := hmap k v w hheld hw
    rw [hfind] at hval
    have hret := congrArg Lookup.ret hval
    simp [copied] at hret
    omega
  · exact hnone v hheld

end

/-- For an exported environment, the lookups before and after relocation agree
on every name exactly when no value has a backslash and the imported table has
a slot for each entry. -/
theorem getenvF_agrees_iff (hooks : Hooks) (ha : hooks.Accepting) (htab : Htab)
    (hkeys : (htab.pairs.map Prod.fst).Nodup)
    (hpairs : ∀ k v, htab.Holds k v → Importable 0 (k, v)) (size : Nat) (env : List UInt8)
    (hexport : hexportR htab 0 0 size [] = .ok (some env)) (envSize : Nat)
    (hsize : env.length ≤ envSize) (old : Option Htab) :
    ∃ t, himportR hooks 0 0 env [] old = .ok (1, some t) ∧
      ((∀ name : CString, chEquals ∉ name.val → ∀ len,
          LookupsAgree hooks env envSize t name len) ↔
        (∀ k v, htab.Holds k v → chBackslash ∉ v.val) ∧
          ∀ new, hcreateR (importEntries env.length) none = some new →
            htab.pairs.length ≤ new.size) := by
  obtain ⟨n, rfl⟩ := hexportR_all_ok hexport
  have he : ∀ e ∈ htab.pairs, Importable 0 e := fun e h => hpairs e.1 e.2 (Htab.mem_pairs.mp h)
  have hmap : ∀ k v v', htab.Holds k v → htab.Holds k v' → v = v' := by
    intro k v v' hv hv'
    rw [← Htab.mem_pairs] at hv hv'
    exact congrArg Prod.snd (inj_on_of_nodup_map hkeys hv hv' rfl)
  obtain ⟨new, t, m, hcreate, himport, hr, hholds⟩ :=
    himportR_exportBytes ha (.inl rfl) hmap he old n
  simp only [length_append, length_replicate] at hsize ⊢
  refine ⟨t, himport, fun hagree => ?_, fun ⟨hplain, hroom⟩ name hname len => ?_⟩
  · have hroom : htab.pairs.length ≤ new.size := by
      by_contra hfull
      obtain ⟨e, hmem, hl⟩ := exists_key_not_entered hkeys hr (by omega)
      have hname := (he e hmem).key_equals
      exact (hagree e.1 hname 0).lookup_ne_none he hr hsize (Htab.mem_pairs.mp hmem) hl
    refine ⟨fun k v hkv => ?_, fun new' h => ?_⟩
    · exact LookupsAgree.plain hmap he hr (hholds hroom) hsize hkv (hagree k (hpairs k v hkv).key_equals)
    · obtain rfl := Option.some.inj (hcreate.symm.trans h)
      exact hroom
  · exact .of_plain he hr (hholds (hroom new hcreate)) hplain hsize hname len

def oneEntryEnv (value : String) : List UInt8 :=
  (oneEntry value).exportBytes 0 ++
    List.replicate ((oneEntry value).exportRoom 0 - ((oneEntry value).exportBytes 0).length) 0

theorem getenvF_agrees_iff_one :
    hexportR (oneEntry "x=y") 0 0 0 [] = .ok (some (oneEntryEnv "x=y")) ∧
      ∃ t, himportR noHooks 0 0 (oneEntryEnv "x=y") [] none = .ok (1, some t) ∧
        ∀ name : CString, chEquals ∉ name.val → ∀ len,
          LookupsAgree noHooks (oneEntryEnv "x=y") 64 t name len := by
  have hp : (oneEntry "x=y").pairs = [(.lit "a", .lit "x=y")] := by decide
  have hexport : hexportR (oneEntry "x=y") 0 0 0 [] = .ok (some (oneEntryEnv "x=y")) := by decide
  have hpairs : ∀ k v, (oneEntry "x=y").Holds k v → Importable 0 (k, v) := by
    intro k v h
    rw [(Htab.holds_single hp).mp h]
    exact importable_a _ (by decide)
  obtain ⟨t, himport, hagree⟩ := getenvF_agrees_iff noHooks noHooks_accepting (oneEntry "x=y")
    (by simp [hp]) hpairs 0 _ hexport 64 (by decide) none
  refine ⟨hexport, t, himport, hagree.mpr ⟨fun k v h => ?_, fun new h => Htab.single_room hp h⟩⟩
  cases (Htab.holds_single hp).mp h
  decide

theorem getenvF_keeps_escape :
    hexportR (oneEntry "\\") 0 0 0 [] = .ok (some (oneEntryEnv "\\")) ∧
      ∃ t, himportR noHooks 0 0 (oneEntryEnv "\\") [] none = .ok (1, some t) ∧
        getenv noHooks t (.lit "a") = some (.lit "\\") ∧
        getenvF (oneEntryEnv "\\") 64 (.lit "a") 32 = .ok ⟨2, [chBackslash, chBackslash, 0]⟩ ∧
        ¬ LookupsAgree noHooks (oneEntryEnv "\\") 64 t (.lit "a") 32 := by
  have hp : (oneEntry "\\").pairs = [(.lit "a", .lit "\\")] := by decide
  have hscan : getenvF (oneEntryEnv "\\") 64 (.lit "a") 32 =
      .ok ⟨2, [chBackslash, chBackslash, 0]⟩ := by decide
  have he : ∀ e ∈ (oneEntry "\\").pairs, Importable 0 e := by
    simpa [hp] using importable_a "\\" (by decide)
  obtain ⟨new, t, m, hcreate, himport, hr, hholds⟩ :=
    himportR_exportBytes noHooks_accepting (.inl rfl) (Htab.single_unique hp) he none
      ((oneEntry "\\").exportRoom 0 - ((oneEntry "\\").exportBytes 0).length)
  have hfind : getenv noHooks t (.lit "a") = some (.lit "\\") := by
    rw [getenv_eq_lookup noHooks hr, ← hr.holds, hholds (Htab.single_room hp hcreate),
      Htab.holds_single hp]
  refine ⟨by decide, t, himport, hfind, hscan, ?_⟩
  rintro ⟨r, hr, -, hval⟩
  obtain rfl := Except.ok.inj (hscan.symm.trans hr)
  exact absurd (hval _ hfind (by decide)) (by decide)

end UBoot.Env
