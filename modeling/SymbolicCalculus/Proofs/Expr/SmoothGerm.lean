import Mathlib
import SymbolicCalculus.Proofs.Expr.Interpretation

/-! # Expressions as functions of their symbols

An expression stands for a real function of its symbols. Such functions form a field once they are
compared at generic points only: a function that is not zero there can be inverted, and the
logarithm of its absolute value is a function again. Functions that agree at generic points agree
around them, so partial derivatives carry over to the field. They are commuting derivations with all
the chain rules that differentiation takes for granted.
-/
namespace SymbolicCalculus

open Filter Topology
open scoped ContDiff

/-- A point gives a real number to every symbol. -/
abbrev Point : Type := lp (fun _ : String => ℝ) 2

def AnalyticOffZero (g : ℝ → ℝ) : Prop := ∀ a ≠ 0, ContDiffAt ℝ ω g a

theorem analyticOffZero_sin : AnalyticOffZero Real.sin := fun _ _ => Real.contDiff_sin.contDiffAt

theorem analyticOffZero_cos : AnalyticOffZero Real.cos := fun _ _ => Real.contDiff_cos.contDiffAt

theorem analyticOffZero_exp : AnalyticOffZero Real.exp := fun _ _ => Real.contDiff_exp.contDiffAt

theorem analyticOffZero_inv : AnalyticOffZero (·⁻¹) := fun _ ha => contDiffAt_inv ℝ ha

theorem analyticOffZero_log : AnalyticOffZero Real.log := fun _ ha => Real.contDiffAt_log.mpr ha

namespace Point

noncomputable def toward (symbol : String) : Point := lp.single 2 symbol 1

noncomputable def coordinate (symbol : String) : Point →L[ℝ] ℝ :=
  lp.evalCLM ℝ (fun _ : String => ℝ) 2 symbol

theorem coordinate_toward (x y : String) : coordinate y (toward x) = if x = y then 1 else 0 := by
  by_cases h : x = y
  · subst h
    rw [if_pos rfl]
    exact lp.single_apply_self 2 x 1
  · rw [if_neg h]
    exact lp.single_apply_ne 2 x 1 (Ne.symm h)

instance : NeBot (residual Point) := by
  rw [neBot_iff, Ne, ← empty_mem_iff_bot]
  intro h
  exact absurd (dense_of_mem_residual h).nonempty Set.not_nonempty_empty

/-- An ultrafilter that has all dense open sets. What holds on one of its members holds at generic
points. -/
noncomputable def generic : Ultrafilter Point := .of (residual Point)

theorem eventually_of_dense {U : Set Point} (hopen : IsOpen U) (hdense : Dense U) :
    ∀ᶠ p in (generic : Filter Point), p ∈ U :=
  Ultrafilter.of_le _ (residual_of_dense_open hopen hdense)

/-- Generic points of a set are surrounded by points that the set comes near to. -/
theorem eventually_mem_interior_closure {A : Set Point} (h : A ∈ generic) :
    ∀ᶠ p in (generic : Filter Point), p ∈ interior (closure A) := by
  have hdense : Dense (frontier (closure A))ᶜ :=
    interior_eq_empty_iff_dense_compl.mp (interior_frontier isClosed_closure)
  filter_upwards [h, eventually_of_dense isClosed_frontier.isOpen_compl hdense] with p hp hfrontier
  rw [← self_sdiff_frontier]
  exact ⟨subset_closure hp, hfrontier⟩

def Smooth (f : Point → ℝ) : Prop := ∀ᶠ p in (generic : Filter Point), ContDiffAt ℝ ω f p

noncomputable def partialDerivative (symbol : String) (f : Point → ℝ) (p : Point) : ℝ :=
  fderiv ℝ f p (toward symbol)

namespace Smooth

variable {f g : Point → ℝ}

theorem const (a : ℝ) : Smooth fun _ => a := .of_forall fun _ => contDiffAt_const

theorem coordinate (symbol : String) : Smooth (coordinate symbol) :=
  .of_forall fun _ => (Point.coordinate symbol).contDiff.contDiffAt

theorem add (hf : Smooth f) (hg : Smooth g) : Smooth (f + g) := by
  filter_upwards [hf, hg] with p hfp hgp using hfp.add hgp

theorem mul (hf : Smooth f) (hg : Smooth g) : Smooth (f * g) := by
  filter_upwards [hf, hg] with p hfp hgp using hfp.mul hgp

theorem neg (hf : Smooth f) : Smooth (-f) := by
  filter_upwards [hf] with p hfp using hfp.neg

theorem partialDerivative (hf : Smooth f) (symbol : String) :
    Smooth (partialDerivative symbol f) := by
  filter_upwards [hf] with p hp
  exact (hp.fderiv_right (m := ω) (by simp)).clm_apply contDiffAt_const

theorem differentiableAt (hf : Smooth f) :
    ∀ᶠ p in (generic : Filter Point), DifferentiableAt ℝ f p := by
  filter_upwards [hf] with p hp using hp.differentiableAt (by simp)

theorem comp {h : ℝ → ℝ} (hh : AnalyticOffZero h) (hf : Smooth f)
    (hne : ∀ᶠ p in (generic : Filter Point), f p ≠ 0) : Smooth (h ∘ f) := by
  filter_upwards [hf, hne] with p hfp hp using (hh _ hp).comp p hfp

theorem eventuallyEq_nhds (hf : Smooth f) (hg : Smooth g) (h : f =ᶠ[generic] g) :
    ∀ᶠ p in (generic : Filter Point), f =ᶠ[𝓝 p] g := by
  have homega : (ω : ℕ∞ω) ≠ ∞ := by decide
  have hagree : {q | f q = g q} ∈ generic := h
  filter_upwards [hf, hg, eventually_mem_interior_closure hagree] with p hfp hgp hp
  filter_upwards [hfp.eventually homega, hgp.eventually homega, isOpen_interior.mem_nhds hp]
    with q hfq hgq hq
  have hnear : NeBot (𝓝[{q | f q = g q}] q) :=
    mem_closure_iff_nhdsWithin_neBot.mp (interior_subset hq)
  have hflimit := hfq.continuousAt.continuousWithinAt (s := {q | f q = g q})
  have hglimit := hgq.continuousAt.continuousWithinAt (s := {q | f q = g q})
  refine tendsto_nhds_unique (hflimit.congr' ?_) hglimit
  filter_upwards [self_mem_nhdsWithin] with r hr using hr

end Smooth

/-- At generic points a function is zero everywhere or nowhere. -/
theorem eventually_eq_zero_or_ne_zero (f : Point → ℝ) :
    (∀ᶠ p in (generic : Filter Point), f p = 0) ∨ ∀ᶠ p in (generic : Filter Point), f p ≠ 0 := by
  rw [← Ultrafilter.eventually_or]
  exact .of_forall fun p => em (f p = 0)

/-- A function of real numbers turns zero into a constant and is composed with any other germ. -/
theorem Smooth.germ_map {h : ℝ → ℝ} (hh : AnalyticOffZero h) {f : Point → ℝ} (hf : Smooth f) :
    ∃ g, Smooth g ∧ Germ.map h (f : Germ (generic : Filter Point) ℝ) = ↑g := by
  rcases eventually_eq_zero_or_ne_zero f with hzero | hne
  · have hgerm : (f : Germ (generic : Filter Point) ℝ) = ↑(0 : ℝ) := Germ.coe_eq.mpr hzero
    rw [hgerm]
    exact ⟨_, .const (h 0), rfl⟩
  · exact ⟨h ∘ f, hf.comp hh hne, rfl⟩

end Point

open Point

/-- The functions that are analytic around generic points, up to their values at generic points. -/
noncomputable def smoothGerms : Subfield (Germ (generic : Filter Point) ℝ) where
  carrier := {φ | ∃ f, Smooth f ∧ φ = ↑f}
  mul_mem' := by
    rintro _ _ ⟨f, hf, rfl⟩ ⟨g, hg, rfl⟩
    exact ⟨f * g, hf.mul hg, rfl⟩
  one_mem' := ⟨_, .const 1, rfl⟩
  add_mem' := by
    rintro _ _ ⟨f, hf, rfl⟩ ⟨g, hg, rfl⟩
    exact ⟨f + g, hf.add hg, rfl⟩
  zero_mem' := ⟨_, .const 0, rfl⟩
  neg_mem' := by
    rintro _ ⟨f, hf, rfl⟩
    exact ⟨-f, hf.neg, rfl⟩
  inv_mem' := by
    rintro _ ⟨f, hf, rfl⟩
    exact hf.germ_map analyticOffZero_inv

abbrev SmoothGerm : Type := smoothGerms

namespace SmoothGerm

noncomputable def of {f : Point → ℝ} (hf : Smooth f) : SmoothGerm := ⟨f, f, hf, rfl⟩

theorem exists_of (φ : SmoothGerm) : ∃ f, ∃ hf : Smooth f, φ = of hf := by
  obtain ⟨_, f, hf, rfl⟩ := φ
  exact ⟨f, hf, rfl⟩

theorem of_eq {f g : Point → ℝ} {hf : Smooth f} {hg : Smooth g} (h : f =ᶠ[generic] g) :
    of hf = of hg :=
  Subtype.ext (Germ.coe_eq.mpr h)

theorem of_add {f g : Point → ℝ} (hf : Smooth f) (hg : Smooth g) :
    of hf + of hg = of (hf.add hg) := rfl

theorem of_mul {f g : Point → ℝ} (hf : Smooth f) (hg : Smooth g) :
    of hf * of hg = of (hf.mul hg) := rfl

/-- The derivative in the direction of a symbol, taken of any function that has the germ. -/
noncomputable def derive (x : String) (φ : SmoothGerm) : SmoothGerm :=
  of (φ.property.choose_spec.1.partialDerivative x)

theorem derive_of (x : String) {f : Point → ℝ} (hf : Smooth f) :
    derive x (of hf) = of (hf.partialDerivative x) := by
  obtain ⟨hchosen, hgerm⟩ := (of hf).property.choose_spec
  apply of_eq
  filter_upwards [hchosen.eventuallyEq_nhds hf (Germ.coe_eq.mp hgerm.symm)] with p hp
  rw [partialDerivative, partialDerivative, hp.fderiv_eq]

theorem derive_add (x : String) (φ ψ : SmoothGerm) :
    derive x (φ + ψ) = derive x φ + derive x ψ := by
  obtain ⟨f, hf, rfl⟩ := φ.exists_of
  obtain ⟨g, hg, rfl⟩ := ψ.exists_of
  rw [of_add, derive_of, derive_of, derive_of, of_add]
  apply of_eq
  filter_upwards [hf.differentiableAt, hg.differentiableAt] with p hfp hgp
  rw [partialDerivative, fderiv_add hfp hgp]
  rfl

theorem derive_mul (x : String) (φ ψ : SmoothGerm) :
    derive x (φ * ψ) = φ * derive x ψ + ψ * derive x φ := by
  obtain ⟨f, hf, rfl⟩ := φ.exists_of
  obtain ⟨g, hg, rfl⟩ := ψ.exists_of
  rw [of_mul, derive_of, derive_of, derive_of, of_mul, of_mul, of_add]
  apply of_eq
  filter_upwards [hf.differentiableAt, hg.differentiableAt] with p hfp hgp
  rw [partialDerivative, fderiv_mul hfp hgp]
  rfl

noncomputable def derivation (x : String) : Derivation ℤ SmoothGerm SmoothGerm :=
  .mk' (AddMonoidHom.mk' (derive x) (derive_add x)).toIntLinearMap (derive_mul x)

theorem derivation_of (x : String) {f : Point → ℝ} (hf : Smooth f) :
    derivation x (of hf) = of (hf.partialDerivative x) := derive_of x hf

theorem derivation_const (x : String) (a : ℝ) : derivation x (of (.const a)) = 0 := by
  have hzero : of (.const 0) = 0 := rfl
  rw [derivation_of, ← hzero]
  apply of_eq
  filter_upwards with p
  simp [partialDerivative]

theorem derivation_comm (x y : String) (φ : SmoothGerm) :
    derivation x (derivation y φ) = derivation y (derivation x φ) := by
  obtain ⟨f, hf, rfl⟩ := φ.exists_of
  rw [derivation_of, derivation_of, derivation_of, derivation_of]
  apply of_eq
  filter_upwards [hf] with p hp
  have hsecond : DifferentiableAt ℝ (fderiv ℝ f) p :=
    (hp.fderiv_right (m := ω) (by simp)).differentiableAt (by simp)
  have happly (v w : Point) :
      fderiv ℝ (fun q => fderiv ℝ f q v) p w = fderiv ℝ (fderiv ℝ f) p w v := by
    rw [fderiv_clm_apply hsecond (differentiableAt_const v)]
    simp
  have hsymmetric : IsSymmSndFDerivAt ℝ f p := hp.isSymmSndFDerivAt (by simp)
  exact (happly _ _).trans ((hsymmetric _ _).trans (happly _ _).symm)

theorem derivation_coordinate (x y : String) :
    derivation x (of (.coordinate y)) = of (.const (if x = y then 1 else 0)) := by
  rw [derivation_of]
  apply of_eq
  filter_upwards with p
  rw [partialDerivative, (coordinate y).fderiv, coordinate_toward]

noncomputable def map {g : ℝ → ℝ} (hg : AnalyticOffZero g) (φ : SmoothGerm) : SmoothGerm :=
  ⟨Germ.map g φ, by
    obtain ⟨f, hf, rfl⟩ := φ.exists_of
    exact hf.germ_map hg⟩

/-- The chain rule. -/
theorem derivation_map {g g' : ℝ → ℝ} (hg : AnalyticOffZero g) (hg' : AnalyticOffZero g')
    (hderiv : ∀ a ≠ 0, HasDerivAt g (g' a) a) (x : String) (φ : SmoothGerm) :
    derivation x (map hg φ) = map hg' φ * derivation x φ := by
  obtain ⟨f, hf, rfl⟩ := φ.exists_of
  rcases eventually_eq_zero_or_ne_zero f with hzero | hne
  · have hgerm : of hf = of (.const 0) := of_eq hzero
    have hmap : map hg (of (.const 0)) = of (.const (g 0)) := rfl
    rw [hgerm, hmap, derivation_const, derivation_const, mul_zero]
  · have hmap : map hg (of hf) = of (hf.comp hg hne) := rfl
    have hmap' : map hg' (of hf) = of (hf.comp hg' hne) := rfl
    rw [hmap, hmap', derivation_of, derivation_of, of_mul]
    apply of_eq
    filter_upwards [hf.differentiableAt, hne] with p hfp hp
    rw [partialDerivative, ((hderiv _ hp).comp_hasFDerivAt p hfp.hasFDerivAt).fderiv]
    rfl

open Classical in
/-- Powers with integer exponents. -/
noncomputable def power (φ n : SmoothGerm) : SmoothGerm :=
  if h : ∃ k : ℤ, n = k then φ ^ h.choose else 0

theorem power_intCast (φ : SmoothGerm) (k : ℤ) : power φ k = φ ^ k := by
  have h : ∃ j : ℤ, (k : SmoothGerm) = j := ⟨k, rfl⟩
  rw [power, dif_pos h, ← Int.cast_injective h.choose_spec]

theorem derivation_power (x : String) (φ n : SmoothGerm) :
    derivation x (power φ n) = n * power φ (n - 1) * derivation x φ := by
  by_cases h : ∃ k : ℤ, n = k
  · obtain ⟨k, rfl⟩ := h
    have hpred : (k : SmoothGerm) - 1 = ((k - 1 : ℤ) : SmoothGerm) := by
      rw [Int.cast_sub, Int.cast_one]
    rw [hpred, power_intCast, power_intCast, Derivation.leibniz_zpow, zsmul_eq_mul, smul_eq_mul,
      mul_assoc]
  · have hpred : ¬ ∃ k : ℤ, n - 1 = k := by
      rintro ⟨k, hk⟩
      exact h ⟨k + 1, by rw [Int.cast_add, ← hk, Int.cast_one, sub_add_cancel]⟩
    rw [power, power, dif_neg h, dif_neg hpred, map_zero, mul_zero, zero_mul]

end SmoothGerm

namespace Interpretation

open SmoothGerm

/-- Symbols are the coordinates of a point, and functions are those of the real numbers. Of the
literals only one and two differ from zero. -/
noncomputable def smooth : Interpretation SmoothGerm where
  symbol name := of (.coordinate name)
  literal x := if x = .one then 1 else if x = .two then 2 else 0
  sin := map analyticOffZero_sin
  cos := map analyticOffZero_cos
  exp := map analyticOffZero_exp
  log := map analyticOffZero_log
  derivative x φ := derivation x φ
  power := SmoothGerm.power

theorem isDifferential_smooth : smooth.IsDifferential derivation where
  derivative_eq _ _ := rfl
  derivation_comm := derivation_comm
  derivation_literal x value := by
    change derivation x (if value = .one then 1 else if value = .two then 2 else 0) = 0
    split
    · exact Derivation.map_one_eq_zero _
    · split
      · exact Derivation.map_natCast _ 2
      · exact map_zero _
  derivation_symbol_self x := by
    refine (derivation_coordinate x x).trans ?_
    rw [if_pos rfl]
    rfl
  derivation_symbol_ne x y h := by
    refine (derivation_coordinate x y).trans ?_
    rw [if_neg h]
    rfl
  derivation_sin :=
    derivation_map analyticOffZero_sin analyticOffZero_cos fun a _ => Real.hasDerivAt_sin a
  derivation_cos x φ := by
    have hneg : AnalyticOffZero fun a => -Real.sin a := fun a ha => (analyticOffZero_sin a ha).neg
    have hcos := derivation_map analyticOffZero_cos hneg (fun a _ => Real.hasDerivAt_cos a) x φ
    obtain ⟨f, hf, rfl⟩ := φ.exists_of
    exact hcos
  derivation_exp :=
    derivation_map analyticOffZero_exp analyticOffZero_exp fun a _ => Real.hasDerivAt_exp a
  derivation_log x φ := by
    rw [div_eq_mul_inv, mul_comm]
    exact derivation_map analyticOffZero_log analyticOffZero_inv
      (fun _ ha => Real.hasDerivAt_log ha) x φ
  derivation_power x φ n _ := SmoothGerm.derivation_power x φ n
  literal_zero := rfl
  literal_one := rfl
  power_two φ := by
    change SmoothGerm.power φ 2 = φ * φ
    have htwo : (2 : SmoothGerm) = ((2 : ℤ) : SmoothGerm) := by norm_num
    rw [htwo, power_intCast, zpow_ofNat, pow_two]

end Interpretation

end SymbolicCalculus
