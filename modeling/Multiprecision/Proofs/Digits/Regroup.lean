import Mathlib
import Multiprecision.Digits.Regroup
import Multiprecision.Proofs.Digits

/-!
# Multiprecision.Proofs.Digits.Regroup

Bits that are cut anew, when the items have no more of them than they should:

* `regroup_lt` — groups of `target` bits are below `2^target`;
* `ofDigits_regroup` — the value of the stream stays.

The bits that wait for more are the invariant: there are fewer of them than a
group has.
-/

namespace Multiprecision.Digits

variable {source target size : Nat}

/-! ## Groups -/

theorem length_groups (n bits : Nat) : (groups size n bits).length = n := by
  induction n generalizing bits with
  | zero => rfl
  | succ n ih => simp [groups, ih]

theorem groups_lt (n bits : Nat) : ∀ g ∈ groups size n bits, g < 2 ^ size := by
  induction n generalizing bits with
  | zero => simp [groups]
  | succ n ih =>
    intro g hg
    rcases List.mem_cons.mp hg with rfl | hg
    · exact Nat.mod_lt _ (Nat.two_pow_pos size)
    · exact ih _ g hg

/-- The groups are the lowest bits. -/
theorem ofDigits_groups (n bits : Nat) :
    Nat.ofDigits (2 ^ size) (groups size n bits) = bits % 2 ^ (n * size) := by
  induction n generalizing bits with
  | zero => simp [groups, Nat.mod_one]
  | succ n ih =>
    rw [groups, Nat.ofDigits_cons, ih, Nat.succ_mul, Nat.add_comm (n * size), pow_add,
      Nat.mod_mul, Nat.pow_eq]

/-- A group starts where those below it end. -/
theorem groups_eq_map (n bits : Nat) :
    groups size n bits = (List.range n).map fun k => bits / 2 ^ (k * size) % 2 ^ size := by
  induction n generalizing bits with
  | zero => rfl
  | succ n ih =>
    have hnext (k : Nat) : bits / 2 ^ size / 2 ^ (k * size) = bits / 2 ^ ((k + 1) * size) := by
      rw [Nat.div_div_eq_div_mul, ← pow_add, Nat.succ_mul, Nat.add_comm]
    simp [groups, ih, List.range_succ_eq_map, hnext]

/-- Full groups, cut off or continued with zeros, are those of their value. -/
theorem take_append_replicate_eq_groups {gs : List Nat} (hgs : ∀ g ∈ gs, g < 2 ^ size) (n : Nat) :
    gs.take n ++ List.replicate (n - gs.length) 0 =
      groups size n (Nat.ofDigits (2 ^ size) gs) := by
  induction n generalizing gs with
  | zero => simp [groups]
  | succ n ih =>
    cases gs with
    | nil => simpa [groups, List.replicate_succ] using @ih [] (by simp)
    | cons g gs =>
      obtain ⟨hg, hgs⟩ := List.forall_mem_cons.mp hgs
      have hpos := Nat.two_pow_pos size
      simp [groups, Nat.ofDigits_cons, Nat.mod_eq_of_lt hg, Nat.div_eq_of_lt hg,
        Nat.add_mul_div_left _ _ hpos, ← ih hgs]

/-! ## One item -/

/-- An item goes above the bits that are held. -/
theorem or_shiftLeft_eq {bits held : Nat} (hbits : bits < 2 ^ held) (x : Nat) :
    bits ||| x <<< held = bits + 2 ^ held * x := by
  rw [Nat.shiftLeft_eq, Nat.mul_comm, Nat.lor_comm, Nat.add_comm,
    Nat.two_pow_add_eq_or_of_lt hbits]

/-- A group on top of bits that are held makes no more bits than both have. -/
theorem joined_lt {bits held x : Nat} (hbits : bits < 2 ^ held) (hx : x < 2 ^ source) :
    bits + 2 ^ held * x < 2 ^ (held + source) := by
  calc bits + 2 ^ held * x < 2 ^ held + 2 ^ held * x := by omega
    _ = 2 ^ held * (x + 1) := by ring
    _ ≤ 2 ^ held * 2 ^ source := Nat.mul_le_mul_left _ hx
    _ = 2 ^ (held + source) := (pow_add _ _ _).symm

/-- The bits above the groups that are full. -/
theorem left_lt {bits held n : Nat} (hbits : bits < 2 ^ held) (hn : n ≤ held) :
    bits >>> n < 2 ^ (held - n) := by
  rw [Nat.shiftRight_eq_div_pow, Nat.div_lt_iff_lt_mul (by positivity), ← pow_add]
  rwa [Nat.sub_add_cancel hn]

/-! ## The stream -/

/-- Every group that is cut off has at most `target` bits. -/
theorem regroup_lt (htarget : 0 < target) {xs : List Nat} {bits held : Nat}
    (hxs : ∀ x ∈ xs, x < 2 ^ source) (hbits : bits < 2 ^ held) (hheld : held < target) :
    ∀ g ∈ regroup source target xs bits held, g < 2 ^ target := by
  induction xs generalizing bits held with
  | nil =>
    intro g hg
    rw [regroup] at hg
    split at hg
    · exact absurd hg List.not_mem_nil
    · rw [List.mem_singleton.mp hg]
      exact hbits.trans_le (Nat.pow_le_pow_right (by decide) hheld.le)
  | cons x xs ih =>
    have hjoined := joined_lt hbits (hxs x List.mem_cons_self)
    have hfull := Nat.div_mul_le_self (held + source) target
    have hlt : held + source - (held + source) / target * target < target := by
      rw [← Nat.mod_eq_sub_div_mul]
      exact Nat.mod_lt _ htarget
    intro g hg
    rw [regroup, List.mem_append, or_shiftLeft_eq hbits] at hg
    rcases hg with hg | hg
    · exact groups_lt _ _ g hg
    · exact ih (fun y hy => hxs y (List.mem_cons_of_mem _ hy)) (left_lt hjoined hfull) hlt g hg

/-- Cutting anew leaves the value of the stream. -/
theorem ofDigits_regroup (htarget : 0 < target) {xs : List Nat} {bits held : Nat}
    (hxs : ∀ x ∈ xs, x < 2 ^ source) (hbits : bits < 2 ^ held) (hheld : held < target) :
    Nat.ofDigits (2 ^ target) (regroup source target xs bits held) =
      bits + 2 ^ held * Nat.ofDigits (2 ^ source) xs := by
  induction xs generalizing bits held with
  | nil =>
    rw [regroup]
    split
    · next hzero =>
      subst hzero
      have hbits : bits = 0 := by simpa using hbits
      simp [hbits]
    · simp
  | cons x xs ih =>
    have hjoined := joined_lt hbits (hxs x List.mem_cons_self)
    have hfull := Nat.div_mul_le_self (held + source) target
    have hlt : held + source - (held + source) / target * target < target := by
      rw [← Nat.mod_eq_sub_div_mul]
      exact Nat.mod_lt _ htarget
    have hrest := ih (fun y hy => hxs y (List.mem_cons_of_mem _ hy)) (left_lt hjoined hfull) hlt
    simp only [regroup, or_shiftLeft_eq hbits]
    rw [Nat.ofDigits_append, ofDigits_groups, length_groups, hrest, ← pow_mul,
      Nat.mul_comm target, Nat.shiftRight_eq_div_pow, Nat.mul_add, ← Nat.add_assoc,
      Nat.mod_add_div, ← Nat.mul_assoc, ← pow_add, Nat.add_sub_cancel' hfull, pow_add,
      Nat.ofDigits_cons]
    ring

/-- A whole stream is cut into groups of its value. -/
theorem regroup_spec (htarget : 0 < target) {xs : List Nat} (hxs : ∀ x ∈ xs, x < 2 ^ source) :
    (∀ g ∈ regroup source target xs 0 0, g < 2 ^ target) ∧
      Nat.ofDigits (2 ^ target) (regroup source target xs 0 0) = Nat.ofDigits (2 ^ source) xs := by
  have hnone : 0 < 2 ^ 0 := by decide
  refine ⟨regroup_lt htarget hxs hnone htarget, ?_⟩
  rw [ofDigits_regroup htarget hxs hnone htarget, pow_zero, Nat.one_mul, Nat.zero_add]

/-! ## Digits -/

/-- Digits are items of the width of a digit. -/
theorem InRange.lt {ds : List Digit} (h : InRange ds) :
    ∀ x ∈ ds.map (·.toNat), x < 2 ^ width := by
  intro x hx
  obtain ⟨d, hd, rfl⟩ := List.mem_map.mp hx
  exact h d hd

/-- The digits write the number to the base `2^width`. -/
theorem ofDigits_toNat (ds : List Digit) :
    Nat.ofDigits (2 ^ width) (ds.map (·.toNat)) = value ds := by
  induction ds with
  | nil => rfl
  | cons d ds ih => simp [Nat.ofDigits_cons, ih, base_eq]

/-- Items cut to the width of a digit are digits, and have the value of the items. -/
theorem regroup_digits {xs : List Nat} (hxs : ∀ x ∈ xs, x < 2 ^ source) :
    InRange ((regroup source width xs 0 0).map UInt32.ofNat) ∧
      value ((regroup source width xs 0 0).map UInt32.ofNat) = Nat.ofDigits (2 ^ source) xs := by
  obtain ⟨hlt, hvalue⟩ := regroup_spec (by decide : 0 < width) hxs
  have htoNat : ∀ g ∈ regroup source width xs 0 0, (UInt32.ofNat g).toNat = g := fun g hg =>
    toNat_ofNat_of_lt_base (base_eq ▸ hlt g hg)
  constructor
  · intro d hd
    obtain ⟨g, hg, rfl⟩ := List.mem_map.mp hd
    rw [htoNat g hg]
    exact hlt g hg
  · have hmap := (List.map_congr_left htoNat).trans (List.map_id' _)
    rw [← ofDigits_toNat, List.map_map, Function.comp_def, hmap, hvalue]

/-- Items cut to the width of a digit are digits. -/
theorem inRange_regroup {xs : List Nat} (hxs : ∀ x ∈ xs, x < 2 ^ source) :
    InRange ((regroup source width xs 0 0).map UInt32.ofNat) :=
  (regroup_digits hxs).1

end Multiprecision.Digits
