import Mathlib.Data.List.Nodup

namespace Zshrs.Lib

variable {α β γ : Type}

/-- A list of all that has a property, each once. -/
structure Enumerates (P : α → Prop) (l : List α) : Prop where
  nodup : l.Nodup
  mem : ∀ a, a ∈ l ↔ P a

namespace Enumerates

theorem self {l : List α} (h : l.Nodup) : Enumerates (· ∈ l) l := ⟨h, fun _ => Iff.rfl⟩

theorem nil {P : α → Prop} (h : ∀ a, ¬P a) : Enumerates P [] :=
  ⟨List.nodup_nil, fun a => ⟨fun ha => absurd ha List.not_mem_nil, fun ha => absurd ha (h a)⟩⟩

theorem congr {P Q : α → Prop} {l : List α} (h : Enumerates P l) (hPQ : ∀ a, P a ↔ Q a) :
    Enumerates Q l :=
  ⟨h.nodup, fun a => (h.mem a).trans (hPQ a)⟩

theorem map {P : α → Prop} {l : List α} (h : Enumerates P l) {f : α → β} (hf : Function.Injective f) :
    Enumerates (fun b => ∃ a, P a ∧ f a = b) (l.map f) := by
  refine ⟨h.nodup.map hf, ?_⟩
  intro b
  simp only [List.mem_map, h.mem]

theorem append {P Q : α → Prop} {l m : List α} (h : Enumerates P l) (h' : Enumerates Q m)
    (hdisj : ∀ a, P a → ¬Q a) : Enumerates (fun a => P a ∨ Q a) (l ++ m) := by
  refine ⟨?_, ?_⟩
  · apply h.nodup.append h'.nodup
    intro a ha hb
    exact hdisj a ((h.mem a).mp ha) ((h'.mem a).mp hb)
  · intro a
    rw [List.mem_append, h.mem, h'.mem]

/-- A first choice from a list, and what may follow it. -/
theorem flatMap (push : α → β → γ) {ds : List α} (hds : ds.Nodup) {P : α → β → Prop}
    {f : α → List β} (h : ∀ d ∈ ds, Enumerates (P d) (f d))
    (hinj : ∀ d d' b b', push d b = push d' b' → d = d' ∧ b = b') :
    Enumerates (fun c => ∃ d ∈ ds, ∃ b, P d b ∧ push d b = c) (ds.flatMap fun d => (f d).map (push d)) := by
  refine ⟨?_, ?_⟩
  · rw [List.nodup_flatMap]
    constructor
    · intro d hd
      exact (h d hd).nodup.map fun b b' hb => (hinj d d b b' hb).2
    · apply hds.imp
      intro d d' hne c hc hc'
      obtain ⟨b, -, rfl⟩ := List.mem_map.mp hc
      obtain ⟨b', -, hb⟩ := List.mem_map.mp hc'
      exact hne (hinj d' d b' b hb).1.symm
  · intro c
    rw [List.mem_flatMap]
    constructor
    · rintro ⟨d, hd, hc⟩
      obtain ⟨b, hb, rfl⟩ := List.mem_map.mp hc
      exact ⟨d, hd, b, ((h d hd).mem b).mp hb, rfl⟩
    · rintro ⟨d, hd, b, hb, rfl⟩
      exact ⟨d, hd, List.mem_map_of_mem (((h d hd).mem b).mpr hb)⟩

end Enumerates

end Zshrs.Lib
