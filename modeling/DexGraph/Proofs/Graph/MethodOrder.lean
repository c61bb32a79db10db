import DexGraph.Graph.Entities
import Mathlib.Data.List.Basic

/-!
# The order of the methods of a class

The direct methods of a class come before its virtual ones, and those of one kind in their order.
`ClassData.methodPlaces` lists the methods in this order, each with its place.
-/

namespace DexGraph

/-- Where a class has a method: among those of a kind, at a position. -/
structure MethodPlace where
  kind : MethodKind
  position : Nat
  deriving DecidableEq, Repr

namespace MethodPlace

/-- A direct method comes before a virtual one, and of one kind the one at the smaller position. -/
def Before (p q : MethodPlace) : Prop :=
  p.kind = .direct ∧ q.kind = .virtual ∨ p.kind = q.kind ∧ p.position < q.position

instance (p q : MethodPlace) : Decidable (p.Before q) :=
  inferInstanceAs (Decidable (_ ∨ _))

end MethodPlace

namespace ClassData

variable {c : ClassData} {kind : MethodKind}

/-- The methods of one kind with their places. -/
def methodPlacesOf (c : ClassData) (kind : MethodKind) : List (MethodPlace × MethodItem) :=
  (c.methods kind).toList.zipIdx.map fun m => (⟨kind, m.2⟩, m.1)

/-- The methods with their places, in their order. -/
def methodPlaces (c : ClassData) : List (MethodPlace × MethodItem) :=
  c.methodPlacesOf .direct ++ c.methodPlacesOf .virtual

theorem mem_methodPlacesOf {p : MethodPlace} {m : MethodItem} :
    (p, m) ∈ c.methodPlacesOf kind ↔ p.kind = kind ∧ (c.methods kind)[p.position]? = some m := by
  rw [methodPlacesOf, List.mem_map]
  constructor
  · rintro ⟨⟨m', i⟩, hmem, heq⟩
    cases heq
    exact ⟨rfl, by simpa using List.mem_zipIdx_iff_getElem?.mp hmem⟩
  · rintro ⟨rfl, hm⟩
    exact ⟨(m, p.position), List.mem_zipIdx_iff_getElem?.mpr (by simpa using hm), rfl⟩

theorem mem_methodPlaces {p : MethodPlace} {m : MethodItem} :
    (p, m) ∈ c.methodPlaces ↔ (c.methods p.kind)[p.position]? = some m := by
  rw [methodPlaces, List.mem_append, mem_methodPlacesOf, mem_methodPlacesOf]
  obtain ⟨kind, position⟩ := p
  cases kind <;> simp

theorem pairwise_methodPlacesOf : (c.methodPlacesOf kind).Pairwise fun p q => p.1.Before q.1 := by
  have hpositions : ((c.methods kind).toList.zipIdx.map Prod.snd).Pairwise (· < ·) := by
    rw [List.zipIdx_map_snd]
    exact List.pairwise_lt_range'
  rw [methodPlacesOf, List.pairwise_map]
  exact (List.pairwise_map.mp hpositions).imp fun hlt => .inr ⟨rfl, hlt⟩

theorem pairwise_methodPlaces : c.methodPlaces.Pairwise fun p q => p.1.Before q.1 := by
  rw [methodPlaces, List.pairwise_append]
  refine ⟨pairwise_methodPlacesOf, pairwise_methodPlacesOf, fun p hp q hq => .inl ⟨?_, ?_⟩⟩
  · exact (mem_methodPlacesOf.mp hp).1
  · exact (mem_methodPlacesOf.mp hq).1

theorem map_snd_methodPlaces : c.methodPlaces.map Prod.snd = c.allMethods.toList := by
  simp only [methodPlaces, methodPlacesOf, allMethods, List.map_append, List.map_map,
    Array.toList_append]
  exact congrArg₂ _ (List.zipIdx_map_fst ..) (List.zipIdx_map_fst ..)

end ClassData

end DexGraph
