import Mathlib
import Multiprecision.Fermat.Convolution
import Multiprecision.Proofs.Integer.Sum
import Multiprecision.Proofs.Polynomial
import Multiprecision.Proofs.Product.Factors

/-!
# Multiprecision.Proofs.Fermat.Convolution

The direct negacyclic convolution computes the coefficients of a product
modulo `X^n + 1` (`negacyclic_yields`).  Its terms are schoolbook products,
so a sequence of long numbers may stop it.
-/

namespace Multiprecision.Fermat

open Integer Coefficients

/-- Natural numbers as integers. -/
def ints (as : List Nat) : List Int := as.map Nat.cast

@[simp] theorem length_ints (as : List Nat) : (ints as).length = as.length := List.length_map ..

theorem ints_take (n : Nat) (as : List Nat) : ints (as.take n) = (ints as).take n :=
  List.map_take ..

theorem ints_drop (n : Nat) (as : List Nat) : ints (as.drop n) = (ints as).drop n :=
  List.map_drop ..

theorem ints_reverse (as : List Nat) : ints as.reverse = (ints as).reverse :=
  List.map_reverse ..

/-- Through the integers or directly, the entries are the same in any ring. -/
theorem map_ints (R : Type*) [CommRing R] (as : List Nat) :
    (ints as).map (Int.castRingHom R) = as.map Nat.cast := by
  rw [ints, List.map_map]
  exact List.map_congr_left fun a _ => by simp

/-- Integers that stand for the given natural numbers. -/
def DenoteAll (xs : List Integer) (as : List Nat) : Prop :=
  List.Forall₂ (fun x a => x.Denotes (a : Nat)) xs as

/-- Schoolbook products with the entries fit their words. -/
def FitAll (xs : List Integer) : Prop := ∀ x ∈ xs, x.digitCount ≤ Digits.maxTerms

variable {may : Endings} {xs ys : List Integer} {as bs : List Nat} {s : Integer} {i : Int}

theorem FitAll.mono {xs' : List Integer} (h : FitAll xs) (hsub : ∀ x ∈ xs', x ∈ xs) :
    FitAll xs' := fun x hx => h x (hsub x hx)

/-- Products of paired entries, added up with a sign. -/
theorem foldProducts_yields {combine : Integer → Integer → Integer} {t : Int}
    (hcombine : ∀ {x y i j}, Denotes x i → Denotes y j → (combine x y).Denotes (i + t * j))
    (hx : DenoteAll xs as) (hy : DenoteAll ys bs) (hfits : may.abort ∨ FitAll xs)
    (hs : s.Denotes i) :
    (foldProducts combine xs ys s).Yields may
      (·.Denotes (i + t * dot (ints as) (ints bs))) := by
  induction hx generalizing ys bs s i with
  | nil =>
    cases ys <;> simpa [foldProducts, ints, dot] using hs
  | @cons x a xs as hxa _ ih =>
    cases hy with
    | nil => simpa [foldProducts, ints, dot] using hs
    | @cons y b ys bs hyb hys =>
      have hfit : may.abort ∨ (Factors.pair x y).Fits :=
        hfits.imp_right fun h => (min_le_left _ _).trans (h x List.mem_cons_self)
      refine (mulGradeSchool_yields hxa hyb hfit zero).bind fun p hp => ?_
      rw [Int.natAbs_natCast, Int.natAbs_natCast, Nat.cast_mul] at hp
      refine (ih hys (hfits.imp_right (·.mono fun x => List.mem_cons_of_mem _))
        (hcombine hs hp)).mono fun r hr => hr.of_eq ?_
      simp only [ints, List.map_cons, dot]
      ring

/-- A coefficient of the convolution. -/
theorem negacyclicCoefficient_yields {n c : Nat} (hx : DenoteAll xs as) (hy : DenoteAll ys bs)
    (ha : as.length = n) (hb : bs.length = n) (hc : c < n) (hfits : may.abort ∨ FitAll xs) :
    (negacyclicCoefficient xs ys c).Yields may
      (·.Denotes (Coefficients.negacyclic n (ints as) (ints bs) c)) := by
  have hlow : DenoteAll (xs.take (c + 1)).reverse (as.take (c + 1)).reverse :=
    List.rel_reverse (List.forall₂_take _ hx)
  have hhigh : DenoteAll (xs.drop (c + 1)).reverse (as.drop (c + 1)).reverse :=
    List.rel_reverse (List.forall₂_drop _ hx)
  refine (foldProducts_yields (t := 1) (fun hi hj => by simpa using hi.add hj) hlow hy
    (hfits.imp_right (·.mono fun x h => List.mem_of_mem_take (List.mem_reverse.mp h)))
    denotes_zero).bind fun direct hdirect => ?_
  refine (foldProducts_yields (t := -1)
    (fun hi hj => (hi.sub hj).of_eq (by ring)) hhigh (List.forall₂_drop _ hy)
    (hfits.imp_right (·.mono fun x h => List.mem_of_mem_drop (List.mem_reverse.mp h)))
    hdirect).mono fun r hr => hr.of_eq ?_
  rw [negacyclic_eq_dot (by simpa) (by simpa) hc, ints_reverse, ints_reverse, ints_take,
    ints_drop, ints_drop]
  ring

/-- The direct convolution of two sequences of one length. -/
theorem negacyclic_yields {n : Nat} (hx : DenoteAll xs as) (hy : DenoteAll ys bs)
    (ha : as.length = n) (hb : bs.length = n) (hfits : may.abort ∨ FitAll xs) :
    (negacyclic xs ys).Yields may
      (List.Forall₂ (fun c x => x.Denotes (Coefficients.negacyclic n (ints as) (ints bs) c))
        (List.range n)) := by
  have hxn : xs.length = n := hx.length_eq.trans ha
  have hyn : ys.length = n := hy.length_eq.trans hb
  simp only [negacyclic, hxn, hyn, min_self]
  rw [List.take_of_length_le hxn.le, List.take_of_length_le hyn.le]
  exact .mapM fun c hc =>
    negacyclicCoefficient_yields hx hy ha hb (List.mem_range.mp hc) hfits

end Multiprecision.Fermat
