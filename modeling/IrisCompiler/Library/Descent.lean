import Mathlib.Data.Multiset.DershowitzManna
import Mathlib.Data.Multiset.AddSub

/-!
# Descent in multisets

A recursion that replaces some of the things it works on by finitely many smaller ones descends in
the order of Dershowitz and Manna.  Such a step is usually put together from many small ones, most
of which change nothing; `Shrinks` is the reflexive form of the order, which adds up, and one
strict part among the summands makes the whole sum strict.
-/

namespace Descent

open Multiset

variable {α : Type*} [Preorder α] {M N M' N' : Multiset α}

/-- `M` comes from `N` by replacing some elements by finitely many smaller ones. -/
def Shrinks (M N : Multiset α) : Prop := ∃ X Y Z, M = X + Y ∧ N = X + Z ∧ ∀ y ∈ Y, ∃ z ∈ Z, y < z

lemma Shrinks.refl (M : Multiset α) : Shrinks M M := ⟨M, 0, 0, by simp, by simp, by simp⟩

lemma Shrinks.of_le (h : M ≤ N) : Shrinks M N := by
  obtain ⟨Z, rfl⟩ := Multiset.le_iff_exists_add.mp h
  exact ⟨M, 0, Z, by simp, rfl, by simp⟩

lemma Shrinks.add (h : Shrinks M N) (h' : Shrinks M' N') : Shrinks (M + M') (N + N') := by
  obtain ⟨X, Y, Z, rfl, rfl, hyz⟩ := h
  obtain ⟨X', Y', Z', rfl, rfl, hyz'⟩ := h'
  refine ⟨X + X', Y + Y', Z + Z', by ac_rfl, by ac_rfl, fun y hy => ?_⟩
  rcases Multiset.mem_add.mp hy with hy | hy
  · obtain ⟨z, hz, hlt⟩ := hyz y hy
    exact ⟨z, Multiset.mem_add.mpr (.inl hz), hlt⟩
  · obtain ⟨z, hz, hlt⟩ := hyz' y hy
    exact ⟨z, Multiset.mem_add.mpr (.inr hz), hlt⟩

lemma descends_singleton {a : α} (h : ∀ y ∈ M, y < a) : IsDershowitzMannaLT M {a} :=
  ⟨0, M, {a}, by simp, by simp, by simp, fun y hy => ⟨a, by simp, h y hy⟩⟩

lemma descends_add_left (h : IsDershowitzMannaLT M N) (h' : Shrinks M' N') :
    IsDershowitzMannaLT (M + M') (N + N') := by
  obtain ⟨X, Y, Z, hZ, rfl, rfl, hyz⟩ := h
  obtain ⟨X', Y', Z', rfl, rfl, hyz'⟩ := h'
  refine ⟨X + X', Y + Y', Z + Z', ?_, by ac_rfl, by ac_rfl, fun y hy => ?_⟩
  · intro hzero
    exact hZ ((add_eq_zero.mp (by simpa using hzero)).1)
  · rcases Multiset.mem_add.mp hy with hy | hy
    · obtain ⟨z, hz, hlt⟩ := hyz y hy
      exact ⟨z, Multiset.mem_add.mpr (.inl hz), hlt⟩
    · obtain ⟨z, hz, hlt⟩ := hyz' y hy
      exact ⟨z, Multiset.mem_add.mpr (.inr hz), hlt⟩

lemma descends_add_right (h : Shrinks M N) (h' : IsDershowitzMannaLT M' N') :
    IsDershowitzMannaLT (M + M') (N + N') := by
  rw [add_comm M, add_comm N]
  exact descends_add_left h' h

/-- A sub-multiset is the whole, or it descends. -/
lemma eq_or_descends_of_le (h : M ≤ N) : M = N ∨ IsDershowitzMannaLT M N := by
  obtain ⟨Z, rfl⟩ := Multiset.le_iff_exists_add.mp h
  by_cases hZ : Z = 0
  · exact .inl (by simp [hZ])
  · exact .inr ⟨M, 0, Z, by simpa using hZ, by simp, rfl, by simp⟩

end Descent
