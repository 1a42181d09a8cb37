import Flowline.Proofs.Switch.Allocation
import Flowline.Proofs.Switch.Memory

/-!
# Who owns which register

What is known of a register file that has served calls, whatever the constants of the switch are
(`Allocator.Ledger`).  Every name owns one register at most, as wide as it was first asked for, on
bits that it shares with no other, and inside its bundle.

That registers lie inside their bundles needs no usable register file: offsets are counted off only
as far as the bits still fit, and the count of a bundle's bits is the word that is written with it.
-/

namespace Flowline.Switch

/-- A register that lies inside its bundle or packet field. -/
structure Register.Inside (r : Register) : Prop where
  low_nonneg : 0 ≤ r.low.toInt
  high_lt_size : r.high.toInt < r.size.toInt

variable {r : Register} {name : Text}

namespace Allocator

variable {a : Allocator}

/-- A register that is placed has the width that was asked for, lies inside its bundle, and takes
bits that were free. -/
structure Placed (a : Allocator) (name : Text) (width bits : Int64) (r : Register) : Prop where
  covers : r.Covers width
  inside : r.Inside
  field_eq : r.field = none
  owner_eq : r.owner = name
  free : a.isFree (span a.target r.number r.bundle r.low bits) = true
  sub : ∀ p ∈ a.target.bits r, p ∈ span a.target r.number r.bundle r.low bits

theorem placed_of_ok {width : Int64} {isBool : Bool} {a' : Allocator} (hw : 0 < width.toInt)
    (h : a.place name width isBool = .ok (r, a')) :
    ∃ bits, a' = a.give name bits r ∧ a.Placed name width bits r := by
  obtain ⟨hgive, hfree, hsub⟩ := free_of_place hw h
  obtain ⟨bundle, first, off, -, hlist, hplace, rfl, -⟩ := place_eq_ok h
  have hnonneg := (Limits.canList_iff.1 hlist).1
  obtain ⟨⟨j, hj, hoff⟩, -⟩ := freeOffset_eq_some (freePlace_eq_some hplace).2
  obtain ⟨hlow, hroom⟩ := offset_fits hnonneg hj
  rw [← hoff] at hlow
  have hround := le_roundUp hw hnonneg
  have hwhole := (bundle * a.target.registerWidth).toInt_lt
  have hhigh : (off + width - 1).toInt = off.toInt + width.toInt - 1 :=
    Word.toInt_add_pred (by omega) (by omega)
  refine ⟨roundUp width, hgive, ⟨hw, hhigh⟩, ⟨?_, ?_⟩, rfl, rfl, hfree, hsub⟩
  · show 0 ≤ off.toInt
    omega
  · show (off + width - 1).toInt < (bundle * a.target.registerWidth).toInt
    omega

/-- A register belongs to a call: it has the name of the call, and was placed for its width. -/
structure Answers (q : Request) (o : Text × Register) : Prop where
  name_eq : o.1 = q.name
  owner_eq : o.2.owner = q.name
  field_eq : o.2.field = none
  covers : o.2.Covers q.declared
  inside : o.2.Inside

/-- What is known of a register file that has served calls of a kind. -/
structure Ledger (S : Request → Prop) (a : Allocator) : Prop where
  answers : ∀ o ∈ a.owners, ∃ q, S q ∧ Answers q o
  taken : ∀ o ∈ a.owners, ∀ p ∈ a.target.bits o.2, p ∈ a.used
  disjoint : a.owners.Pairwise fun o o' => (a.target.bits o.2).Disjoint (a.target.bits o'.2)
  distinct : (a.owners.map (·.1)).Nodup

variable {S : Request → Prop}

theorem ledger_fresh (t : Target) : Ledger S (fresh t) :=
  ⟨nofun, nofun, List.Pairwise.nil, List.nodup_nil⟩

/-- Giving free bits to a name that owns none keeps the ledger. -/
theorem Ledger.give (ha : Ledger S a) {q : Request} (hq : S q) {bits : Int64}
    (hnone : a.lookup q.name = none) (hr : a.Placed q.name q.declared bits r) :
    Ledger S (a.give q.name bits r) := by
  have hname : q.name ∉ a.owners.map (·.1) := by
    intro hmem
    obtain ⟨o, ho, heq⟩ := List.mem_map.mp hmem
    have hne := List.lookup_eq_none_iff.mp hnone o ho
    simp [heq] at hne
  refine ⟨?_, taken_give ha.taken hr.sub, disjoint_give ha.taken ha.disjoint hr.free hr.sub, ?_⟩
  · intro o ho
    rcases List.mem_append.1 ho with ho | ho
    · exact ha.answers o ho
    · cases List.mem_singleton.1 ho
      exact ⟨q, hq, rfl, hr.owner_eq, hr.field_eq, hr.covers, hr.inside⟩
  · rw [Allocator.give, List.map_append]
    exact List.Nodup.append ha.distinct (List.nodup_singleton _)
      (List.disjoint_singleton.mpr hname)

theorem Ledger.take (ha : Ledger S a) {q : Request} (hq : S q) : Ledger S (a.take q) := by
  rcases a.take_eq_or_place q with heq | ⟨hnone, hpos, r, hplace⟩
  · rw [heq]
    exact ha
  · obtain ⟨bits, heq, hr⟩ := placed_of_ok hpos hplace
    rw [heq]
    exact ha.give hq hnone hr

theorem Ledger.serve (ha : Ledger S a) {qs : List Request} (hqs : ∀ q ∈ qs, S q) :
    Ledger S (a.serve qs) := by
  induction qs generalizing a with
  | nil => exact ha
  | cons q qs ih =>
    rw [List.forall_mem_cons] at hqs
    exact ih (ha.take hqs.1) hqs.2

theorem target_take (a : Allocator) (q : Request) : (a.take q).target = a.target := by
  rcases a.take_eq_or_place q with heq | ⟨-, -, r, hplace⟩
  · rw [heq]
  · obtain ⟨_, _, _, -, -, -, -, heq⟩ := place_eq_ok hplace
    rw [heq]
    rfl

theorem target_serve (a : Allocator) (qs : List Request) : (a.serve qs).target = a.target := by
  induction qs generalizing a with
  | nil => rfl
  | cons q qs ih => exact (ih (a.take q)).trans (a.target_take q)

theorem mem_owners_of_lookup (h : a.lookup name = some r) : (name, r) ∈ a.owners := by
  obtain ⟨before, after, heq, -⟩ := List.lookup_eq_some_iff.mp h
  rw [heq]
  exact List.mem_append_right _ List.mem_cons_self

theorem Ledger.inside_of_lookup (ha : Ledger S a) (h : a.lookup name = some r) : r.Inside := by
  obtain ⟨q, -, hq⟩ := ha.answers _ (mem_owners_of_lookup h)
  exact hq.inside

theorem Ledger.disjoint_of_lookup (ha : Ledger S a) {name' : Text} {r' : Register}
    (hne : name ≠ name') (hr : a.lookup name = some r) (hr' : a.lookup name' = some r') :
    (a.target.bits r).Disjoint (a.target.bits r') := by
  have : Std.Symm fun o o' : Text × Register =>
      (a.target.bits o.2).Disjoint (a.target.bits o'.2) := ⟨fun _ _ h => h.symm⟩
  refine ha.disjoint.forall (mem_owners_of_lookup hr) (mem_owners_of_lookup hr') fun heq => ?_
  exact hne (congrArg Prod.fst heq)

theorem Ledger.bits_ne_nil (ha : Ledger S a) (hr : a.lookup name = some r) :
    a.target.bits r ≠ [] := by
  obtain ⟨q, -, hq⟩ := ha.answers _ (mem_owners_of_lookup hr)
  have hfield : r.field = none := hq.field_eq
  have hwidth : r.width = q.declared := hq.covers.width_eq
  have hpos := hq.covers.pos
  intro hnil
  have hlength := congrArg List.length hnil
  rw [Target.bits, hfield] at hlength
  simp only [List.length_map, List.length_range, List.length_nil] at hlength
  rw [hwidth] at hlength
  omega

end Allocator

end Flowline.Switch
