import UBoot.Env.HashTableMap

/-!
# The size hcreate_r chooses

For odd numbers above three the trial division of `isprime` decides primality,
and by Bertrand's postulate the search for the next prime ends below twice the
number of entries asked for. A table created for at least four entries, few
enough for the address space, therefore always starts the empty map.
-/

namespace UBoot.Env

/-! ## isprime -/

theorem eq_zero_of_sq_le (hn : n ≤ div ^ 2) (hk : (div + 2 * k) ^ 2 ≤ n) : k = 0 := by
  have h : div + 2 * k ≤ div := (Nat.pow_le_pow_iff_left two_ne_zero).mp (hk.trans hn)
  omega

theorem isprimeLoop_sound (h : isprimeLoop n fuel div = true) (hf : n ≤ (div + 2 * fuel) ^ 2)
    (k : Nat) (hk : (div + 2 * k) ^ 2 ≤ n) : n % (div + 2 * k) ≠ 0 := by
  induction fuel generalizing div k with
  | zero =>
    obtain rfl := eq_zero_of_sq_le hf hk
    simpa [isprimeLoop] using h
  | succ fuel ih =>
    simp only [isprimeLoop] at h
    split at h
    · rename_i hstep
      cases k with
      | zero => exact hstep.2
      | succ k =>
        have hd : div + 2 * (k + 1) = div + 2 + 2 * k := by ring
        rw [hd] at hk ⊢
        exact ih h (by convert hf using 2; ring) k hk
    · rename_i hstop
      have hrem : n % div ≠ 0 := by simpa using h
      have hsq : n ≤ div ^ 2 := by
        by_contra hlt
        exact hstop ⟨by nlinarith, hrem⟩
      obtain rfl := eq_zero_of_sq_le hsq hk
      exact hrem

theorem prime_of_isprime (h : isprime n = true) (hodd : n % 2 = 1) (hn : 3 < n) : n.Prime := by
  by_contra hp
  have hsq : n.minFac ^ 2 ≤ n := Nat.minFac_sq_le_self (by omega) hp
  have hmin : n.minFac.Prime := Nat.minFac_prime (by omega)
  have hdvd : n.minFac ∣ n := Nat.minFac_dvd n
  have hmodd : n.minFac % 2 = 1 := by
    rw [← Nat.odd_iff]
    exact (Nat.odd_iff.mpr hodd).of_dvd_nat hdvd
  obtain ⟨k, hk⟩ : ∃ k, n.minFac = 3 + 2 * k := ⟨(n.minFac - 3) / 2, by have := hmin.two_le; omega⟩
  rw [hk] at hsq hdvd
  exact isprimeLoop_sound h (by nlinarith) k hsq (Nat.mod_eq_zero_of_dvd hdvd)

theorem isprimeLoop_prime (hp : n.Prime) (hd : 3 ≤ div) (hlt : div < n) :
    isprimeLoop n fuel div = true := by
  have hrem : n % div ≠ 0 := fun h => by
    rcases (Nat.dvd_prime hp).mp (Nat.dvd_of_mod_eq_zero h) with h | h <;> omega
  induction fuel generalizing div with
  | zero => simpa [isprimeLoop] using hrem
  | succ fuel ih =>
    simp only [isprimeLoop]
    split
    · rename_i hstep
      have hnext : div + 2 < n := by nlinarith
      refine ih (by omega) hnext fun h => ?_
      rcases (Nat.dvd_prime hp).mp (Nat.dvd_of_mod_eq_zero h) with h | h <;> omega
    · simpa using hrem

/-! ## The next prime -/

theorem nextPrime_of_isprime (fuel : Nat) (h : isprime (nel + 2 * k) = true) (hk : k < fuel) :
    ∃ size, nextPrime fuel nel = some size ∧ isprime size = true ∧ nel ≤ size ∧
      size ≤ nel + 2 * k := by
  induction k generalizing nel fuel with
  | zero =>
    cases fuel with
    | zero => cases hk
    | succ fuel => exact ⟨nel, if_pos h, h, le_rfl, le_rfl⟩
  | succ k ih =>
    cases fuel with
    | zero => cases hk
    | succ fuel =>
      simp only [nextPrime]
      split
      · rename_i hnel
        exact ⟨nel, rfl, hnel, le_rfl, Nat.le_add_right ..⟩
      · rw [show nel + 2 * (k + 1) = nel + 2 + 2 * k by ring] at h
        obtain ⟨size, hsize, hprime, hle, hge⟩ := ih fuel h (Nat.lt_of_succ_lt_succ hk)
        exact ⟨size, hsize, hprime, by omega, by omega⟩

theorem nextPrime_prime (hodd : nel % 2 = 1) (hnel : 3 < nel) :
    ∃ size, nextPrime (nel + 1) nel = some size ∧ size.Prime ∧ nel ≤ size ∧ size ≤ 2 * nel := by
  obtain ⟨p, hp, hlt, hle⟩ := Nat.exists_prime_lt_and_le_two_mul nel (by omega)
  have hpodd : p % 2 = 1 := (hp.eq_two_or_odd).resolve_left (by omega)
  obtain ⟨k, rfl⟩ : ∃ k, p = nel + 2 * k := ⟨(p - nel) / 2, by omega⟩
  obtain ⟨size, hsize, hprime, hge, hbound⟩ :=
    nextPrime_of_isprime (nel + 1) (isprimeLoop_prime hp (by omega) (by omega)) (by omega)
  exact ⟨size, hsize, prime_of_isprime hprime (nextPrime_odd hsize hodd) (by omega), hge, by omega⟩

theorem hcreateR_starts (hlo : 4 ≤ nel) (hhi : nel < 2 ^ 20) :
    ∃ htab, hcreateR nel none = some htab ∧ Represents htab.size htab ∅ ∧ nel ≤ htab.size := by
  have hodd : (nel ||| 1) % 2 = 1 := by simp [Nat.or_mod_two_eq_one]
  have hge : nel ≤ nel ||| 1 := Nat.left_le_or
  have hor : (nel ||| 1) < 2 ^ 20 := Nat.or_lt_two_pow hhi (by norm_num)
  obtain ⟨size, hsize, hprime, hle, hbound⟩ := nextPrime_prime hodd (by omega)
  have hcreate : hcreateR nel none = some ⟨size, 0, fun _ => emptySlot⟩ := by
    simp only [hcreateR, hsize, Option.bind_eq_bind, Option.bind_some]
    exact if_pos (by unfold sizeofEntry; omega)
  exact ⟨_, hcreate, hcreateR_represents hcreate hprime, hge.trans hle⟩

end UBoot.Env
