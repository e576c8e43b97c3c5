import UolaOs.Rtl83xx.Regs
import Mathlib.Data.List.Infix

/-!
# VLAN filters of the RTL838x

`rtl83xx_vlan_filtering` of dsa.c. A port has two bits in one of the ingress filter registers, which
are the action for its frames, and a bit in the egress filter register.

* `mem_igr`, `mem_egr`, `vlanFiltering_frame`: what a call does;
* `filters_iff`: the calls after which the filters are those of the last calls.
-/

namespace UolaOs.Rtl83xx.Filter

/-- `priv->r->vlan_port_igr_filter` -/
def vlanPortIgrFilter : Family → Nat
  | .rtl8380 => 0x3a7c
  | .rtl8390 => 0x27b4

/-- `priv->r->vlan_port_egr_filter` -/
def vlanPortEgrFilter : Family → Nat
  | .rtl8380 => 0x3a84
  | .rtl8390 => 0x27c4

/-- `BIT`, for a number below 32. -/
def bit (n : Nat) : BitVec 32 := BitVec.twoPow 32 n

/-- `rtl83xx_vlan_filtering` -/
def vlanFiltering (fam : Family) (port : Nat) (on : Bool) (r : Regs) : Regs :=
  let igr := vlanPortIgrFilter fam + ((port >>> 5) <<< 2)
  let egr := vlanPortEgrFilter fam + ((port >>> 4) <<< 2)
  let shift := (port % 16) <<< 1
  if on = true then
    swW32Mask 0 (bit (port % 32)) egr
      (if port ≠ fam.cpuPort then swW32Mask (0b10#32 <<< shift) (0b01#32 <<< shift) igr r else r)
  else
    swW32Mask (bit (port % 32)) 0 egr
      (if port ≠ fam.cpuPort then swW32Mask (0b11#32 <<< shift) 0 igr r else r)

structure Call where
  port : Nat
  on : Bool
  deriving DecidableEq

def Call.run (c : Call) (r : Regs) : Regs := vlanFiltering .rtl8380 c.port c.on r

/-- Calls one after the other. -/
def run (calls : List Call) (r : Regs) : Regs := calls.foldl (fun r c => c.run r) r

/-! ## The registers of a port -/

/-- `RTL838X_VLAN_PORT_IGR_FLTR` -/
def portIgrFltr (port : Nat) : Nat := 0x3a7c + ((port >>> 4) <<< 2)

/-- `RTL838X_VLAN_PORT_EGR_FLTR` -/
def portEgrFltr : Nat := 0x3a84

/-- The ingress action of a port: 0 is forward, 1 is drop. -/
def ingressAction (port : Nat) (r : Regs) : BitVec 32 :=
  (r (portIgrFltr port) >>> (2 * (port % 16))) &&& 3

/-- What the last calls say. -/
def filtered (calls : List Call) : Nat → Bool :=
  calls.foldl (fun f c => Function.update f c.port c.on) fun _ => false

/-- All filters are off. -/
structure Off (r : Regs) : Prop where
  ingress : ∀ port < Family.rtl8380.cpuPort, ingressAction port r = 0
  egress : ∀ port < Family.rtl8380.cpuPort, port ∉ r portEgrFltr

/-- The filters that are on are those of `f`, and the other registers are as in `start`. -/
structure Filters (start : Regs) (f : Nat → Bool) (r : Regs) : Prop where
  ingress : ∀ port < Family.rtl8380.cpuPort, ingressAction port r = 1 ↔ f port = true
  egress : ∀ port < Family.rtl8380.cpuPort, port ∈ r portEgrFltr ↔ f port = true
  frame : ∀ reg, reg ≠ portIgrFltr 0 → reg ≠ portIgrFltr 16 → reg ≠ portEgrFltr →
    r reg = start reg

/-- A call for one of the first 16 ports, or one that finds nothing to switch off where it writes:
the action of the port 16 below, and the register behind the egress filter. -/
def Safe (c : Call) (r : Regs) : Prop :=
  c.port < 16 ∨ c.on = false ∧ ingressAction (c.port - 16) r ≠ 1 ∧ c.port ∉ r (portEgrFltr + 4)

section
variable {port : Nat} {on : Bool} {r start : Regs} {f : Nat → Bool} {j reg : Nat}

/-! ## One call -/

theorem mem_field {x : BitVec 32} {n : Nat} (hx : ∀ k, k ∈ x → k < 2) (hn : n < 31) :
    j ∈ x <<< n ↔ j = n ∧ 0 ∈ x ∨ j = n + 1 ∧ 1 ∈ x := by
  rw [mem_shiftLeft]
  constructor
  · rintro ⟨hle, -, hmem⟩
    have hlt := hx _ hmem
    rcases Nat.lt_or_ge (j - n) 1 with h0 | h1
    · have hj : j = n := by omega
      subst hj
      rw [Nat.sub_self] at hmem
      exact .inl ⟨rfl, hmem⟩
    · have hj : j = n + 1 := by omega
      subst hj
      rw [Nat.add_sub_cancel_left] at hmem
      exact .inr ⟨rfl, hmem⟩
  · rintro (⟨rfl, hmem⟩ | ⟨rfl, hmem⟩)
    · rw [Nat.sub_self]
      exact ⟨Nat.le_refl _, by omega, hmem⟩
    · rw [Nat.add_sub_cancel_left]
      exact ⟨Nat.le_add_right _ _, by omega, hmem⟩

theorem lt_two_of_mem {x : BitVec 32} (hx : x &&& 3 = x) : ∀ k, k ∈ x → k < 2 := by
  intro k hk
  rw [← hx, mem_and] at hk
  exact ((mem_ones (n := 2)).mp hk.2).2

theorem mem_bit {n : Nat} (hn : n < 32) : j ∈ bit n ↔ j = n := by
  rw [bit, mem_twoPow, and_iff_left hn]

theorem ingressAction_mem {n : Nat} : j ∈ (r reg >>> n) &&& 3 ↔ j < 2 ∧ n + j ∈ r reg := by
  rw [mem_and, mem_shiftRight]
  constructor
  · rintro ⟨hmem, hj⟩
    exact ⟨((mem_ones (n := 2)).mp hj).2, hmem⟩
  · rintro ⟨hj, hmem⟩
    exact ⟨hmem, (mem_ones (n := 2)).mpr ⟨by omega, hj⟩⟩

/-- The two bits of an action. -/
theorem ingressAction_eq_iff {x : BitVec 32} (hx : x &&& 3 = x) :
    ingressAction port r = x ↔
      (2 * (port % 16) ∈ r (portIgrFltr port) ↔ 0 ∈ x) ∧
        (2 * (port % 16) + 1 ∈ r (portIgrFltr port) ↔ 1 ∈ x) := by
  constructor
  · rintro rfl
    rw [ingressAction, ingressAction_mem, ingressAction_mem, Nat.add_zero]
    exact ⟨(and_iff_right (by decide)).symm, (and_iff_right (by decide)).symm⟩
  · rintro ⟨h0, h1⟩
    refine mask_ext fun k => ?_
    rw [ingressAction, ingressAction_mem]
    rcases Nat.lt_or_ge k 2 with hk | hk
    · rw [and_iff_right hk]
      obtain rfl | rfl : k = 0 ∨ k = 1 := by omega
      · exact h0
      · exact h1
    · exact ⟨fun h => absurd h.1 (by omega), fun h => absurd (lt_two_of_mem hx k h) (by omega)⟩

/-- Where the egress filter of a port is written. -/
def egrWritten (port : Nat) : Nat := portEgrFltr + 4 * (port / 16)

theorem run_eq (hport : port < Family.rtl8380.cpuPort) :
    vlanFiltering .rtl8380 port on r =
      if on = true then
        swW32Mask 0 (bit port) (egrWritten port) (swW32Mask (0b10#32 <<< (2 * (port % 16)))
          (0b01#32 <<< (2 * (port % 16))) (portIgrFltr 0) r)
      else
        swW32Mask (bit port) 0 (egrWritten port)
          (swW32Mask (0b11#32 <<< (2 * (port % 16))) 0 (portIgrFltr 0) r) := by
  have hcpu : Family.rtl8380.cpuPort = 28 := rfl
  have hword : port >>> 5 = 0 := by
    rw [Nat.shiftRight_eq_div_pow]
    exact Nat.div_eq_of_lt (Nat.lt_trans hport (by decide))
  have hegr : vlanPortEgrFilter .rtl8380 + ((port >>> 4) <<< 2) = egrWritten port := by
    rw [egrWritten, Nat.shiftLeft_eq, Nat.shiftRight_eq_div_pow, Nat.mul_comm]
    rfl
  have hshift : (port % 16) <<< 1 = 2 * (port % 16) := by
    rw [Nat.shiftLeft_eq, Nat.mul_comm]
  have hbit : port % 32 = port := Nat.mod_eq_of_lt (by omega)
  rw [vlanFiltering]
  simp only [hword, hegr, hshift, hbit, if_pos hport.ne]
  rfl

theorem egrWritten_ne (port : Nat) : egrWritten port ≠ portIgrFltr 0 := by
  have h0 : portIgrFltr 0 = 0x3a7c := rfl
  rw [egrWritten, portEgrFltr, h0]
  omega

/-- The ingress filter register of the first 16 ports. -/
theorem mem_igr (hport : port < Family.rtl8380.cpuPort) :
    j ∈ vlanFiltering .rtl8380 port on r (portIgrFltr 0) ↔
      j = 2 * (port % 16) ∧ on = true ∨
        j ∈ r (portIgrFltr 0) ∧ j ≠ 2 * (port % 16) ∧ j ≠ 2 * (port % 16) + 1 := by
  have hn : 2 * (port % 16) < 31 := by omega
  have hfield {x : BitVec 32} (hx : x &&& 3 = x) := @mem_field j x _ (lt_two_of_mem hx) hn
  rw [run_eq hport]
  cases on with
  | true =>
    rw [if_pos rfl, swW32Mask_of_ne (egrWritten_ne port).symm, mem_swW32Mask,
      hfield (x := 0b10#32) (by decide), hfield (x := 0b01#32) (by decide)]
    have h0 : ¬ 0 ∈ 0b10#32 := by decide
    have h1 : 1 ∈ 0b10#32 := by decide
    have h2 : 0 ∈ 0b01#32 := by decide
    have h3 : ¬ 1 ∈ 0b01#32 := by decide
    simp only [h0, h1, h2, h3, and_true, and_false, or_false, false_or]
    by_cases hj : j = 2 * (port % 16)
    · simp only [hj, true_or, or_true]
    · simp only [hj, ne_eq, not_false_iff, true_and, false_or, or_false]
  | false =>
    rw [if_neg (by decide), swW32Mask_of_ne (egrWritten_ne port).symm, mem_swW32Mask,
      hfield (x := 0b11#32) (by decide)]
    have h0 : 0 ∈ 0b11#32 := by decide
    have h1 : 1 ∈ 0b11#32 := by decide
    have hz : j ∉ (0 : BitVec 32) := not_mem_zero
    simp only [h0, h1, and_true, hz, or_false, not_or, reduceCtorEq, and_false, false_or, ne_eq]

/-- The register where the egress filter is written. -/
theorem mem_egr (hport : port < Family.rtl8380.cpuPort) :
    j ∈ vlanFiltering .rtl8380 port on r (egrWritten port) ↔
      j = port ∧ on = true ∨ j ∈ r (egrWritten port) ∧ j ≠ port := by
  have hcpu : Family.rtl8380.cpuPort = 28 := rfl
  have hz : j ∉ (0 : BitVec 32) := not_mem_zero
  rw [run_eq hport]
  cases on with
  | true =>
    rw [if_pos rfl, mem_swW32Mask, swW32Mask_of_ne (egrWritten_ne port), mem_bit (by omega)]
    by_cases hj : j = port
    · simp only [hj, true_and, or_true, true_or]
    · simp only [hz, hj, not_false_iff, and_true, or_false, false_or, ne_eq]
  | false =>
    rw [if_neg (by decide), mem_swW32Mask, swW32Mask_of_ne (egrWritten_ne port),
      mem_bit (by omega)]
    simp only [hz, or_false, reduceCtorEq, and_false, false_or, ne_eq]

theorem vlanFiltering_frame (hport : port < Family.rtl8380.cpuPort) (higr : reg ≠ portIgrFltr 0)
    (hegr : reg ≠ egrWritten port) : vlanFiltering .rtl8380 port on r reg = r reg := by
  rw [run_eq hport]
  cases on with
  | true => rw [if_pos rfl, swW32Mask_of_ne hegr, swW32Mask_of_ne higr]
  | false => rw [if_neg (by decide), swW32Mask_of_ne hegr, swW32Mask_of_ne higr]

/-! ## Runs -/

/-- The bits of the filters, as long as no high port is filtered. -/
structure Good (start : Regs) (f : Nat → Bool) (r : Regs) : Prop where
  drop : ∀ port < Family.rtl8380.cpuPort,
    2 * (port % 16) ∈ r (portIgrFltr port) ↔ f port = true
  trap : ∀ port < Family.rtl8380.cpuPort, 2 * (port % 16) + 1 ∉ r (portIgrFltr port)
  egress : ∀ port < Family.rtl8380.cpuPort, port ∈ r portEgrFltr ↔ f port = true
  frame : ∀ reg, reg ≠ portIgrFltr 0 → reg ≠ portIgrFltr 16 → reg ≠ portEgrFltr →
    r reg = start reg
  low : ∀ port < Family.rtl8380.cpuPort, f port = true → port < 16

theorem portIgrFltr_low (hport : port < 16) : portIgrFltr port = portIgrFltr 0 := by
  have hword : port >>> 4 = 0 := by
    rw [Nat.shiftRight_eq_div_pow]
    exact Nat.div_eq_of_lt hport
  rw [portIgrFltr, hword]
  rfl

theorem portIgrFltr_high (hlow : 16 ≤ port) (hport : port < Family.rtl8380.cpuPort) :
    portIgrFltr port = portIgrFltr 16 := by
  have hcpu : Family.rtl8380.cpuPort = 28 := rfl
  have hword : port >>> 4 = 1 := by
    rw [Nat.shiftRight_eq_div_pow]
    omega
  rw [portIgrFltr, hword]
  rfl

theorem egrWritten_low (hport : port < 16) : egrWritten port = portEgrFltr := by
  rw [egrWritten, Nat.div_eq_of_lt hport, Nat.mul_zero, Nat.add_zero]

theorem egrWritten_high (hlow : 16 ≤ port) (hport : port < Family.rtl8380.cpuPort) :
    egrWritten port = portEgrFltr + 4 := by
  have hcpu : Family.rtl8380.cpuPort = 28 := rfl
  have hword : port / 16 = 1 := by omega
  rw [egrWritten, hword]

theorem Good.action (h : Good start f r) (hport : port < Family.rtl8380.cpuPort) :
    ingressAction port r = 1 ↔ f port = true := by
  have h0 : 0 ∈ (1 : BitVec 32) := by decide
  have h1 : 1 ∉ (1 : BitVec 32) := by decide
  rw [ingressAction_eq_iff (by decide), iff_true_right h0, iff_false_right h1,
    and_iff_left (h.trap port hport)]
  exact h.drop port hport

theorem Good.filters (h : Good start f r) : Filters start f r :=
  ⟨fun _ hport => h.action hport, h.egress, h.frame⟩

theorem Off.good (h : Off start) : Good start (fun _ => false) start := by
  have hbits (port : Nat) (hport : port < Family.rtl8380.cpuPort) :=
    (ingressAction_eq_iff (x := 0) (by decide)).mp (h.ingress port hport)
  refine ⟨fun port hport => ?_, fun port hport => ?_, fun port hport => ?_, fun _ _ _ _ => rfl,
    fun port _ hon => absurd hon (by decide)⟩
  · exact (hbits port hport).1.trans ⟨fun h => absurd h not_mem_zero, fun h => absurd h (by decide)⟩
  · exact fun hmem => not_mem_zero ((hbits port hport).2.mp hmem)
  · exact ⟨fun hmem => absurd hmem (h.egress port hport), fun hon => absurd hon (by decide)⟩

variable {c : Call}

/-- A call for one of the first 16 ports. -/
theorem Good.run_low (h : Good start f r) (hlow : c.port < 16) :
    Good start (Function.update f c.port c.on) (c.run r) := by
  have hc : c.port < Family.rtl8380.cpuPort := Nat.lt_trans hlow (by decide)
  have hegr := egrWritten_low hlow
  have hne : portIgrFltr 16 ≠ egrWritten c.port := by
    rw [hegr]
    decide
  have hsame (port : Nat) (hport : 16 ≤ port) (hlt : port < Family.rtl8380.cpuPort) :
      c.run r (portIgrFltr port) = r (portIgrFltr port) := by
    rw [portIgrFltr_high hport hlt]
    exact vlanFiltering_frame hc (by decide) hne
  refine ⟨fun port hport => ?_, fun port hport => ?_, fun port hport => ?_, ?_,
    fun port hport hon => ?_⟩
  · rcases Nat.lt_or_ge port 16 with hp | hp
    · have hold := h.drop port hport
      rw [portIgrFltr_low hp] at hold ⊢
      rw [Call.run, mem_igr hc, hold]
      by_cases heq : port = c.port
      · subst heq
        simp only [Function.update_self, true_and, ne_eq, not_true_eq_false, false_and, and_false,
          or_false]
      · rw [Function.update_of_ne heq]
        have h0 : 2 * (port % 16) ≠ 2 * (c.port % 16) := by omega
        have h1 : 2 * (port % 16) ≠ 2 * (c.port % 16) + 1 := by omega
        simp only [h0, h1, ne_eq, not_false_iff, false_and, false_or, and_true]
    · rw [hsame port hp hport, Function.update_of_ne (by omega)]
      exact h.drop port hport
  · rcases Nat.lt_or_ge port 16 with hp | hp
    · have hold := h.trap port hport
      rw [portIgrFltr_low hp] at hold ⊢
      rw [Call.run, mem_igr hc]
      rintro (⟨heq, -⟩ | ⟨hmem, -⟩)
      · omega
      · exact hold hmem
    · rw [hsame port hp hport]
      exact h.trap port hport
  · have hmem := @mem_egr c.port c.on r port hc
    rw [hegr, h.egress port hport] at hmem
    rw [Call.run, hmem]
    by_cases heq : port = c.port
    · subst heq
      simp only [Function.update_self, true_and, ne_eq, not_true_eq_false, and_false, or_false]
    · rw [Function.update_of_ne heq]
      simp only [heq, ne_eq, not_false_iff, false_and, false_or, and_true]
  · intro reg h0 h16 hreg
    rw [Call.run, vlanFiltering_frame hc h0 (hegr ▸ hreg)]
    exact h.frame reg h0 h16 hreg
  · by_cases heq : port = c.port
    · exact heq ▸ hlow
    · rw [Function.update_of_ne heq] at hon
      exact h.low port hport hon

/-- A safe call for another port changes nothing. -/
theorem Good.run_high (h : Good start f r) (hlow : 16 ≤ c.port)
    (hc : c.port < Family.rtl8380.cpuPort) (hsafe : Safe c r) :
    c.run r = r ∧ Function.update f c.port c.on = f := by
  have hcpu : Family.rtl8380.cpuPort = 28 := rfl
  obtain ⟨hoff, haction, hegress⟩ := hsafe.resolve_left (by omega)
  have hsub : c.port - 16 < Family.rtl8380.cpuPort := by omega
  have hmod : (c.port - 16) % 16 = c.port % 16 := by omega
  have hfirst : f (c.port - 16) ≠ true := fun hon => haction ((h.action hsub).mpr hon)
  have hdrop := h.drop _ hsub
  have htrap := h.trap _ hsub
  rw [hmod, portIgrFltr_low (by omega)] at hdrop htrap
  have hwritten := egrWritten_high hlow hc
  constructor
  · funext reg
    by_cases higr : reg = portIgrFltr 0
    · subst higr
      refine mask_ext fun j => ?_
      rw [Call.run, mem_igr hc, hoff]
      constructor
      · rintro (⟨-, hon⟩ | ⟨hj, -⟩)
        · exact absurd hon (by decide)
        · exact hj
      · refine fun hj => .inr ⟨hj, ?_, ?_⟩
        · rintro rfl
          exact hfirst (hdrop.mp hj)
        · rintro rfl
          exact htrap hj
    · by_cases hegr : reg = egrWritten c.port
      · subst hegr
        refine mask_ext fun j => ?_
        rw [Call.run, mem_egr hc, hoff]
        constructor
        · rintro (⟨-, hon⟩ | ⟨hj, -⟩)
          · exact absurd hon (by decide)
          · exact hj
        · refine fun hj => .inr ⟨hj, ?_⟩
          rintro rfl
          rw [hwritten] at hj
          exact hegress hj
      · exact vlanFiltering_frame hc higr hegr
  · funext port
    by_cases heq : port = c.port
    · subst heq
      rw [Function.update_self, hoff]
      by_contra hon
      have hon := h.low _ hc (Bool.eq_true_of_not_eq_false (Ne.symm hon))
      omega
    · exact Function.update_of_ne heq ..

theorem Good.run (h : Good start f r) (hc : c.port < Family.rtl8380.cpuPort) (hsafe : Safe c r) :
    Good start (Function.update f c.port c.on) (c.run r) := by
  rcases Nat.lt_or_ge c.port 16 with hlow | hhigh
  · exact h.run_low hlow
  · obtain ⟨hrun, hf⟩ := h.run_high hhigh hc hsafe
    rwa [hrun, hf]

/-- Every other call goes wrong. -/
theorem Good.safe (h : Good start f r) (hc : c.port < Family.rtl8380.cpuPort)
    (hf : Filters start (Function.update f c.port c.on) (c.run r)) : Safe c r := by
  have hcpu : Family.rtl8380.cpuPort = 28 := rfl
  rcases Nat.lt_or_ge c.port 16 with hlow | hhigh
  · exact .inl hlow
  have hsub : c.port - 16 < Family.rtl8380.cpuPort := by omega
  have hwritten := egrWritten_high hhigh hc
  have hoff : c.on = false := by
    by_contra hon
    have hkept : c.run r (portIgrFltr c.port) = r (portIgrFltr c.port) := by
      rw [portIgrFltr_high hhigh hc]
      refine vlanFiltering_frame hc (by decide) ?_
      rw [hwritten]
      decide
    have haction : ingressAction c.port r = 1 := by
      rw [ingressAction, ← hkept]
      refine (hf.ingress _ hc).mpr ?_
      rw [Function.update_self]
      exact Bool.eq_true_of_not_eq_false hon
    have hlow := h.low _ hc ((h.action hc).mp haction)
    omega
  refine .inr ⟨hoff, fun haction => ?_, fun hmem => ?_⟩
  · have hdrop := (hf.ingress _ hsub).mpr (by
      rw [Function.update_of_ne (by omega)]
      exact (h.action hsub).mp haction)
    have hbit := ((ingressAction_eq_iff (x := 1) (by decide)).mp hdrop).1.mpr (by decide)
    have hmod : (c.port - 16) % 16 = c.port % 16 := by omega
    rw [portIgrFltr_low (by omega), hmod, Call.run, mem_igr hc, hoff] at hbit
    rcases hbit with ⟨-, hon⟩ | ⟨-, hne, -⟩
    · exact absurd hon (by decide)
    · exact hne rfl
  · have hreg := hf.frame (portEgrFltr + 4) (by decide) (by decide) (by decide)
    rw [← h.frame (portEgrFltr + 4) (by decide) (by decide) (by decide)] at hreg
    rw [← hreg, ← hwritten, Call.run, mem_egr hc, hoff] at hmem
    rcases hmem with ⟨-, hon⟩ | ⟨-, hne⟩
    · exact absurd hon (by decide)
    · exact hne rfl

variable {calls pre : List Call}

theorem run_append (pre : List Call) (c : Call) (r : Regs) :
    run (pre ++ [c]) r = c.run (run pre r) := by
  rw [run, List.foldl_append]
  rfl

theorem filtered_append (pre : List Call) (c : Call) :
    filtered (pre ++ [c]) = Function.update (filtered pre) c.port c.on := by
  rw [filtered, List.foldl_append]
  rfl

/-- What holds after all calls, as long as each of them is safe where it comes. -/
theorem Off.run_good (h : Off start) (hports : ∀ c ∈ calls, c.port < Family.rtl8380.cpuPort)
    (hsafe : ∀ pre c, pre ++ [c] <+: calls → Good start (filtered pre) (run pre start) →
      Safe c (run pre start)) (hpre : pre <+: calls) :
    Good start (filtered pre) (run pre start) := by
  induction pre using List.reverseRecOn with
  | nil => exact h.good
  | append_singleton pre c ih =>
    have hc := hports c (hpre.subset (List.mem_append_right _ (List.mem_singleton_self c)))
    have hgood := ih ((List.prefix_append pre [c]).trans hpre)
    rw [run_append, filtered_append]
    exact hgood.run hc (hsafe pre c hpre hgood)

/-- **VLAN filtering.** The filters are those of the last calls after each of the calls exactly if
every call is safe. -/
theorem filters_iff (h : Off start) (calls : List Call)
    (hports : ∀ c ∈ calls, c.port < Family.rtl8380.cpuPort) :
    (∀ pre, pre <+: calls → Filters start (filtered pre) (run pre start)) ↔
      ∀ pre c, pre ++ [c] <+: calls → Safe c (run pre start) := by
  constructor
  · intro hf
    have hsafe (pre : List Call) (c : Call) (hpre : pre ++ [c] <+: calls)
        (hgood : Good start (filtered pre) (run pre start)) : Safe c (run pre start) := by
      have hnext := hf _ hpre
      rw [run_append, filtered_append] at hnext
      exact hgood.safe
        (hports c (hpre.subset (List.mem_append_right _ (List.mem_singleton_self c)))) hnext
    exact fun pre c hpre => hsafe pre c hpre
      (h.run_good hports hsafe ((List.prefix_append pre [c]).trans hpre))
  · intro hsafe pre hpre
    exact (h.run_good hports (fun pre c hpre _ => hsafe pre c hpre) hpre).filters

end

theorem off_zero : Off fun _ => 0 := by
  refine ⟨fun port _ => ?_, fun port _ => not_mem_zero⟩
  rw [ingressAction, BitVec.ofNat_eq_ofNat, BitVec.zero_ushiftRight, BitVec.zero_and]

/-- A port is filtered, and no longer filtered. -/
def onOff : List Call := [⟨3, true⟩, ⟨4, true⟩, ⟨3, false⟩]

theorem filters_onOff :
    Filters (fun _ => 0) (filtered onOff) (run onOff fun _ => 0) ∧ filtered onOff 4 = true := by
  have hlow : ∀ c ∈ onOff, c.port < 16 := by decide
  have hsafe := (filters_iff off_zero onOff fun c hc => Nat.lt_trans (hlow c hc) (by decide)).mpr
    fun pre c hpre => .inl
      (hlow c (hpre.subset (List.mem_append_right _ (List.mem_singleton_self c))))
  exact ⟨hsafe onOff List.prefix_rfl, rfl⟩

/-- Port 16 is filtered, and the filter of port 0 is written. -/
theorem not_filters_high :
    Off (fun _ => 0) ∧ (16 : Nat) < Family.rtl8380.cpuPort ∧
      ¬ Filters (fun _ => 0) (filtered [⟨16, true⟩]) (run [⟨16, true⟩] fun _ => 0) := by
  refine ⟨off_zero, by decide, fun h => ?_⟩
  have haction := (h.ingress 0 (by decide)).mp (by decide)
  exact absurd haction (by decide)

end UolaOs.Rtl83xx.Filter
