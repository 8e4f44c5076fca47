import Mathlib
import Multiprecision.Calibration.FileTree
import Multiprecision.CommandLine.Run
import Multiprecision.Random.Generator
import Multiprecision.Proofs.NumberTheory.Agreement

/-!
# Multiprecision.Proofs.CommandLine

What thresholds do to the output of a command: nothing.

* `Computation.evaluate_agree` — the results of a computation have the same
  values over any two exact arithmetics;
* `Computation.output_agree` — so their text is the same;
* `Settings.run_compute` — a run that computes ends with that text, or with
  the error and no text at all (`Ending.output_of_failure`);
* `thresholds_unseen` — two runs that finish end alike, whatever thresholds they
  were given or found in a profile.
-/

namespace Multiprecision.CommandLine

open Integer Outcome Multiprecision.Random

variable {may : Endings} {A B : Arithmetic}

/-! ## Computations -/

/-- Results of the same value. -/
inductive Result.Same : Result → Result → Prop
  | integer {x y : Integer} : Integer.Same x y → Same (.integer x) (.integer y)
  | truth (b : Bool) : Same (.truth b) (.truth b)

/-- Results of the same value are printed alike, in decimal and in hexadecimal. -/
theorem Result.Same.line {r r' : Result} (h : Result.Same r r') (hex : Bool) :
    r.line hex = r'.line hex := by
  cases h with
  | integer hsame => rw [Result.line, Result.line, hsame.toDecimal, hsame.toHex]
  | truth b => rfl

namespace Computation

/-- The operands are canonical, as all that can be made are. -/
def Canonical : Computation → Prop
  | mul a b | div a b | gcd a b | inverse a b => a.Canonical ∧ b.Canonical
  | square x | pow x _ | isPrime x _ => x.Canonical
  | powMod base exponent modulus => base.Canonical ∧ exponent.Canonical ∧ modulus.Canonical

/-- A computation whose only result is an integer. -/
theorem agree_integer {σ : Type} {o o' : Outcome Integer} (h : Agree may Integer.Same o o')
    (s : σ) :
    Agree may (fun (rs, _) (rs', _) => List.Forall₂ Result.Same rs rs')
      ((do return [.integer (← o)] : Draw σ (List Result)).run s)
      ((do return [.integer (← o')] : Draw σ (List Result)).run s) := by
  rw [run_lift_bind, run_lift_bind]
  exact h.bind fun x y hxy => .value (.cons (.integer hxy) .nil)

variable {σ : Type} [ByteSource σ]

/-- The results of a computation have the same values over any two exact
arithmetics. -/
theorem evaluate_agree (hA : A.Exact may) (hB : B.Exact may) (hexhaust : may.exhaust)
    {c : Computation} (hc : c.Canonical) (s : σ) :
    Agree may (fun (rs, _) (rs', _) => List.Forall₂ Result.Same rs rs')
      ((c.evaluate A).run s) ((c.evaluate B).run s) := by
  cases c with
  | mul a b => exact agree_integer (hA.product_agree hB hc.1 hc.2) s
  | square x => exact agree_integer (hA.square_agree hB hc) s
  | div a b =>
    rw [evaluate, evaluate, run_lift_bind, run_lift_bind]
    refine (hA.divMod_agree hB hc.1 hc.2).bind ?_
    rintro ⟨q, r⟩ ⟨q', r'⟩ ⟨hq, hr⟩
    exact .value (.cons (.integer hq) (.cons (.integer hr) .nil))
  | pow base e => exact agree_integer (NumberTheory.power_agree hA hB hc e) s
  | powMod base e m =>
    exact agree_integer (NumberTheory.powerMod_agree hA hB hc.1 hc.2.1 hc.2.2) s
  | isPrime n p =>
    rw [evaluate, evaluate, StateT.run_bind, StateT.run_bind]
    refine (NumberTheory.isPrime_agree hA hB hexhaust hc p _ s).bind_eq ?_
    rintro ⟨b, s'⟩
    exact .value (.cons (.truth b) .nil)
  | gcd a b => exact agree_integer (NumberTheory.gcd_agree hA hB hc.1 hc.2) s
  | inverse a m => exact agree_integer (NumberTheory.inverse_agree hA hB hc.1 hc.2) s

/-- Lines of results of the same value. -/
theorem map_line_eq {rs rs' : List Result} (h : List.Forall₂ Result.Same rs rs') (hex : Bool) :
    rs.map (Result.line hex) = rs'.map (Result.line hex) := by
  induction h with
  | nil => rfl
  | cons hr _ ih => rw [List.map_cons, List.map_cons, hr.line, ih]

/-- The text of a computation is the same over any two exact arithmetics, and so
is its error. -/
theorem output_agree (hA : A.Exact may) (hB : B.Exact may) (hexhaust : may.exhaust)
    {c : Computation} (hc : c.Canonical) (hex : Bool) (source : σ) :
    Agree may Eq (c.output A hex source) (c.output B hex source) := by
  refine (evaluate_agree hA hB hexhaust hc source).bind ?_
  rintro ⟨rs, s⟩ ⟨rs', s'⟩ hsame
  exact .value (congrArg String.join (map_line_eq hsame hex))

end Computation

/-! ## Runs -/

/-- A computation that fails prints nothing. -/
theorem Ending.output_of_failure (c : Computation) (o : Outcome String)
    (h : (Ending.ofOutput c o).failure ≠ none) : (Ending.ofOutput c o).output = "" := by
  cases o with
  | value text => exact absurd rfl h
  | failure e => rfl
  | aborted => rfl
  | exhausted => rfl

/-- The command line asks for a computation. -/
structure Settings.Asks (s : Settings) (c : Computation) : Prop where
  completion : s.completion = none
  command : s.command = some (.compute c)

/-- A run that computes reads the profile first, then asks for random bytes, and
ends with the computation. -/
theorem Settings.run_compute {m : Type → Type} [Monad m] [LawfulMonad m] {s : Settings}
    {σ : Type} [ByteSource σ] {c : Computation} (h : s.Asks c) (host : Host m σ) (depth : Nat) :
    s.run host depth = do
      let t ← s.baseThresholds host
      let source ← host.source
      return .ofOutput c (c.output (.ofThresholds (s.overrides.apply t) depth) s.hex source) := by
  rw [run, h.completion, h.command]
  rfl

/-- A run in a world of which it may read and change the state, with random
bytes from a `σ`. -/
structure Invocation (τ σ : Type) where
  settings : Settings
  host : Host (StateM τ) σ
  depth : Nat
  world : τ

namespace Invocation

variable {τ σ : Type}

/-- The thresholds in force: those of the profile or the default ones, with the
overrides. -/
def thresholds (i : Invocation τ σ) : Thresholds :=
  i.settings.overrides.apply ((i.settings.baseThresholds i.host).run i.world).1

/-- Where the random bytes come from. -/
def bytes (i : Invocation τ σ) : σ :=
  (i.host.source.run ((i.settings.baseThresholds i.host).run i.world).2).1

variable [ByteSource σ]

/-- What becomes of the computation. -/
def outcome (i : Invocation τ σ) (c : Computation) : Outcome String :=
  c.output (.ofThresholds i.thresholds i.depth) i.settings.hex i.bytes

/-- How the run ends. -/
def ending (i : Invocation τ σ) : Ending := ((i.settings.run i.host i.depth).run i.world).1

/-- A run that computes ends with what becomes of the computation. -/
theorem ending_eq {i : Invocation τ σ} {c : Computation} (h : i.settings.Asks c) :
    i.ending = .ofOutput c (i.outcome c) := by
  rw [ending, Settings.run_compute h]
  rfl

end Invocation

/-- Thresholds are not seen in what a command prints or how it fails.  Wherever
the random bytes come from, the text under any thresholds is the same, and so is
the error; two runs from the command line with the same bytes that finish end
alike, and one that fails has printed nothing. -/
theorem thresholds_unseen {c : Computation} (hc : c.Canonical) :
    (∀ {σ : Type} [ByteSource σ] (source : σ) (hex : Bool) (t t' : Thresholds)
      (depth depth' : Nat),
      (c.output (.ofThresholds t depth) hex source).Finished →
      (c.output (.ofThresholds t' depth') hex source).Finished →
      c.output (.ofThresholds t depth) hex source =
        c.output (.ofThresholds t' depth') hex source) ∧
    (∀ {τ τ' σ : Type} [ByteSource σ] (i : Invocation τ σ) (i' : Invocation τ' σ),
      i.settings.Asks c → i'.settings.Asks c → i.settings.hex = i'.settings.hex →
      i.bytes = i'.bytes → (i.outcome c).Finished → (i'.outcome c).Finished →
      i.ending = .ofOutput c (i.outcome c) ∧ i.outcome c = i'.outcome c ∧
        i.ending = i'.ending) ∧
    ∀ {τ σ : Type} [ByteSource σ] (i : Invocation τ σ), i.settings.Asks c → i.ending.failure ≠ none →
      i.ending.output = "" := by
  have hsame {σ : Type} [ByteSource σ] (source : σ) (hex : Bool) (t t' : Thresholds)
      (depth depth' : Nat) (h : (c.output (.ofThresholds t depth) hex source).Finished)
      (h' : (c.output (.ofThresholds t' depth') hex source).Finished) :
      c.output (.ofThresholds t depth) hex source =
        c.output (.ofThresholds t' depth') hex source :=
    (Computation.output_agree (Arithmetic.ofThresholds_exact t depth)
      (Arithmetic.ofThresholds_exact t' depth') trivial hc hex source).eq h.not_endsBy h'.not_endsBy
  refine ⟨hsame, ?_, ?_⟩
  · intro τ τ' σ _ i i' hi hi' hhex hbytes hfin hfin'
    have houtcome : i.outcome c = i'.outcome c := by
      rw [Invocation.outcome, hhex, hbytes] at hfin ⊢
      exact hsame _ _ _ _ _ _ hfin hfin'
    exact ⟨Invocation.ending_eq hi, houtcome,
      by rw [Invocation.ending_eq hi, Invocation.ending_eq hi', houtcome]⟩
  · intro τ σ _ i hi
    rw [Invocation.ending_eq hi]
    exact Ending.output_of_failure c _

/-- A run on an empty tree of files. -/
def Invocation.inMemory (settings : Settings) (depth : Nat) :
    Invocation Calibration.FileTree Generator where
  settings := settings
  host := {
    files := Calibration.FileTree.actions
    places := {}
    machine := {}
    seconds := pure 0
    judge := fun _ _ _ => pure false
    notice := fun _ => pure ()
    source := pure ⟨0⟩ }
  depth := depth
  world := {}

/-- Minus seven divided by two, under the default thresholds and under others. -/
theorem thresholds_unseen_minus_seven :
    let c : Computation := .div (.ofInt (-7)) 2
    let plain := Invocation.inMemory { command := some (.compute c) } 1
    let tuned := Invocation.inMemory
      { command := some (.compute c)
        profile := true
        overrides := { toom2 := some 64, newton := some 1 } } 2
    c.Canonical ∧ plain.outcome c = .value "-4\n1\n" ∧ tuned.outcome c = .value "-4\n1\n" ∧
      plain.ending = tuned.ending := by
  intro c plain tuned
  have hc : c.Canonical := ⟨(denotes_ofInt _).canonical, (denotes_ofNat 2).canonical⟩
  have hplain : plain.outcome c = .value "-4\n1\n" := by decide +kernel
  have htuned : tuned.outcome c = .value "-4\n1\n" := by decide +kernel
  have hruns := (thresholds_unseen hc).2.1 plain tuned ⟨rfl, rfl⟩ ⟨rfl, rfl⟩ rfl rfl
    (.inl ⟨_, hplain⟩) (.inl ⟨_, htuned⟩)
  exact ⟨hc, hplain, htuned, hruns.2.2⟩

end Multiprecision.CommandLine
