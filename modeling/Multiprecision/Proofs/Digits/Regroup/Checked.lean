import Mathlib
import Multiprecision.Digits.Regroup.Checked
import Multiprecision.Proofs.Digits.Regroup

/-!
# Multiprecision.Proofs.Digits.Regroup.Checked

An accumulator of 64 bits is wide enough for items and groups that have no
more bits than that together:

* `join?_eq` — there is room for an item above the bits that wait;
* `drain_spec` — full groups are put out until there are none;
* `regroup?_spec` — the groups are those of `regroup`.

The invariant is that fewer bits wait than a group has.
-/

namespace Multiprecision.Digits

variable {source target : Nat}

/-- A shift by less than 64 bits is kept in a word. -/
theorem toNat_ofNat_of_lt_64 {n : Nat} (h : n < 64) : (UInt64.ofNat n).toNat = n :=
  UInt64.toNat_ofNat_of_lt (h.trans (by decide))

/-- A group is put above the bits that are held if it fits. -/
theorem join?_eq (acc : UInt64) {x : UInt64} {held : Nat} (hheld : held < 64)
    (hroom : x.toNat * 2 ^ held < 2 ^ 64) :
    ∃ acc', join? acc held x = some acc' ∧ acc'.toNat = acc.toNat ||| x.toNat <<< held := by
  refine ⟨acc ||| x <<< UInt64.ofNat held, if_pos ?_, ?_⟩
  · simpa [hheld] using hroom
  · rw [UInt64.toNat_or, UInt64.toNat_shiftLeft, toNat_ofNat_of_lt_64 hheld,
      Nat.mod_eq_of_lt hheld, Nat.shiftLeft_eq, Nat.mod_eq_of_lt hroom]

/-- As many groups are put out as are full. -/
theorem drain_spec (hpos : 0 < target) (hlt : target < 64) (acc : UInt64) (held : Nat) :
    (drain target acc held).1.map (·.toNat % 2 ^ target) =
        groups target (held / target) acc.toNat ∧
      (drain target acc held).2.1.toNat = acc.toNat >>> (held / target * target) ∧
      (drain target acc held).2.2 = held - held / target * target := by
  induction held using Nat.strong_induction_on generalizing acc with
  | _ held ih =>
    unfold drain
    by_cases hfull : held < target
    · rw [if_pos (.inr hfull), Nat.div_eq_of_lt hfull]
      simp [groups]
    · rw [if_neg (by omega)]
      obtain ⟨hgroups, hleft, hheld⟩ :=
        ih (held - target) (by omega) (acc >>> UInt64.ofNat target)
      have hshift : (acc >>> UInt64.ofNat target).toNat = acc.toNat / 2 ^ target := by
        rw [UInt64.toNat_shiftRight, toNat_ofNat_of_lt_64 hlt, Nat.mod_eq_of_lt hlt,
          Nat.shiftRight_eq_div_pow]
      have hcount : held / target = (held - target) / target + 1 :=
        Nat.div_eq_sub_div hpos (not_lt.mp hfull)
      rw [hshift] at hgroups hleft
      refine ⟨?_, ?_, ?_⟩
      · rw [List.map_cons, hgroups, hcount]
        rfl
      · rw [hleft, hcount, Nat.succ_mul, Nat.add_comm, Nat.shiftRight_add,
          Nat.shiftRight_eq_div_pow acc.toNat]
      · rw [hheld, hcount, Nat.succ_mul]
        omega

/-- The groups at the low ends of the accumulators. -/
theorem regroup?_eq (hpos : 0 < target) (hroom : target + source ≤ 64) (htarget : target < 64)
    {xs : List UInt64} {acc : UInt64} {held : Nat} (hxs : ∀ x ∈ xs, x.toNat < 2 ^ source)
    (hacc : acc.toNat < 2 ^ held) (hheld : held < target) :
    ∃ accs, regroup? source target xs acc held = some accs ∧
      accs.map (·.toNat % 2 ^ target) =
        regroup source target (xs.map (·.toNat)) acc.toNat held := by
  induction xs generalizing acc held with
  | nil =>
    have hlow : acc.toNat < 2 ^ target :=
      hacc.trans (Nat.pow_lt_pow_right (by decide) hheld)
    refine ⟨_, rfl, ?_⟩
    by_cases hzero : held = 0 <;> simp [regroup, hzero, Nat.mod_eq_of_lt hlow]
  | cons x xs ih =>
    obtain ⟨hx, hxs⟩ := List.forall_mem_cons.mp hxs
    have hfits : x.toNat * 2 ^ held < 2 ^ 64 := by
      calc
        _ < 2 ^ source * 2 ^ held := Nat.mul_lt_mul_of_pos_right hx (Nat.two_pow_pos held)
        _ = 2 ^ (source + held) := (pow_add _ _ _).symm
        _ ≤ 2 ^ 64 := Nat.pow_le_pow_right (by decide) (by omega)
    obtain ⟨acc', hjoin, hacc'⟩ := join?_eq acc (by omega : held < 64) hfits
    obtain ⟨hgroups, hleft, hrest⟩ := drain_spec hpos htarget acc' (held + source)
    rw [hacc'] at hgroups hleft
    have hjoined := joined_lt hacc hx
    rw [← or_shiftLeft_eq hacc] at hjoined
    have hlow : (drain target acc' (held + source)).2.1.toNat <
        2 ^ (drain target acc' (held + source)).2.2 := by
      rw [hleft, hrest]
      exact left_lt hjoined (Nat.div_mul_le_self _ _)
    have hwaits : (drain target acc' (held + source)).2.2 < target := by
      rw [hrest, ← Nat.mod_eq_sub_div_mul]
      exact Nat.mod_lt _ hpos
    obtain ⟨accs, haccs, hmap⟩ := ih hxs hlow hwaits
    refine ⟨(drain target acc' (held + source)).1 ++ accs, ?_, ?_⟩
    · unfold regroup?
      simp [hjoin, haccs]
    · rw [List.map_append, hgroups, hmap, hleft, hrest]
      rfl

/-- A whole stream is cut without losing a bit. -/
theorem regroup?_spec (hpos : 0 < target) (hroom : target + source ≤ 64) (htarget : target < 64)
    {xs : List UInt64} (hxs : ∀ x ∈ xs, x.toNat < 2 ^ source) :
    ∃ accs, regroup? source target xs 0 0 = some accs ∧
      accs.map (·.toNat % 2 ^ target) = regroup source target (xs.map (·.toNat)) 0 0 :=
  regroup?_eq hpos hroom htarget hxs Nat.one_pos hpos

end Multiprecision.Digits
