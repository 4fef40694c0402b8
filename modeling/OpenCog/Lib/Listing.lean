import Mathlib.Data.List.Nodup
import Mathlib.Tactic.Common

/-! Lists of everything with a property, each once, where things are told apart by what is
observed of them. -/

/-- `out` holds what has the property `S`, and nothing twice. -/
structure Listing {α β : Type} (obs : α → β) (S : α → Prop) (out : List α) : Prop where
  distinct : (out.map obs).Nodup
  sound : ∀ a ∈ out, S a
  complete : ∀ a, S a → obs a ∈ out.map obs

namespace Listing

variable {α β : Type} {obs : α → β} {S T : α → Prop} {out out' : List α}

theorem nil (h : ∀ a, ¬ S a) : Listing obs S [] :=
  ⟨List.nodup_nil, nofun, fun a ha => absurd ha (h a)⟩

theorem singleton {a : α} (ha : S a) (h : ∀ b, S b → obs b = obs a) : Listing obs S [a] := by
  refine ⟨List.nodup_singleton _, fun b hb => ?_, fun b hb => ?_⟩
  · rw [List.mem_singleton.mp hb]
    exact ha
  · exact List.mem_singleton.mpr (h b hb)

theorem congr (h : Listing obs S out) (hiff : ∀ a, S a ↔ T a) : Listing obs T out :=
  ⟨h.distinct, fun a ha => (hiff a).mp (h.sound a ha), fun a ha => h.complete a ((hiff a).mpr ha)⟩

theorem append (h : Listing obs S out) (h' : Listing obs T out')
    (hd : ∀ a b, S a → T b → obs a ≠ obs b) : Listing obs (fun a => S a ∨ T a) (out ++ out') := by
  refine ⟨?_, fun a ha => ?_, fun a ha => ?_⟩
  · rw [List.map_append, List.nodup_append]
    refine ⟨h.distinct, h'.distinct, fun x hx y hy => ?_⟩
    obtain ⟨a, ha, rfl⟩ := List.mem_map.mp hx
    obtain ⟨b, hb, rfl⟩ := List.mem_map.mp hy
    exact hd a b (h.sound a ha) (h'.sound b hb)
  · exact (List.mem_append.mp ha).imp (h.sound a) (h'.sound a)
  · rw [List.map_append, List.mem_append]
    exact ha.imp (h.complete a) (h'.complete a)

/-- What one property has looks like something that another has with the same list. -/
theorem transfer (h : Listing obs S out) (h' : Listing obs T out) {a : α} (ha : S a) :
    ∃ b, obs b = obs a ∧ T b := by
  obtain ⟨b, hb, e⟩ := List.mem_map.mp (h.complete a ha)
  exact ⟨b, e, h'.sound b hb⟩

end Listing
