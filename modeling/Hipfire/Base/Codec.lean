import Mathlib
/-!
# Codec — codes that say where they end

A code `enc` tells `key` of a value if it can be read off the front of a text: two equal texts that start with codes start with
codes of values with one key, and go on alike (`Tells`).  Such codes are injective up to the key and no code is a proper
initial part of another (`Tells.eq_of_prefix`).  Counted lists of such codes can be read off as well
(`Tells.counted`).
-/
namespace Hipfire.Codec

open List

variable {α κ σ : Type} {P : α → Prop} {enc : α → List σ} {key : α → κ}

/-- The code of an admissible value can be read off the front of a text, up to its key. -/
def Tells (P : α → Prop) (enc : α → List σ) (key : α → κ) : Prop :=
  ∀ a b s t, P a → P b → enc a ++ s = enc b ++ t → key a = key b ∧ s = t

theorem Tells.key_eq (h : Tells P enc key) {a b : α} (ha : P a) (hb : P b) (he : enc a = enc b) : key a = key b :=
  (h a b [] [] ha hb (by rw [he])).1

/-- **No code is a proper initial part of another.** -/
theorem Tells.eq_of_prefix (h : Tells P enc key) {a b : α} (ha : P a) (hb : P b) (hp : enc a <+: enc b) : enc a = enc b := by
  obtain ⟨rest, hrest⟩ := hp
  have hnil := (h a b rest [] ha hb (by rw [hrest, append_nil])).2
  rw [← hrest, hnil, append_nil]

theorem tells_of_length (n : Nat) (hlen : ∀ a, P a → (enc a).length = n)
    (hinj : ∀ a b, P a → P b → enc a = enc b → key a = key b) : Tells P enc key := by
  intro a b s t ha hb he
  obtain ⟨h1, h2⟩ := append_inj he ((hlen a ha).trans (hlen b hb).symm)
  exact ⟨hinj a b ha hb h1, h2⟩

theorem Tells.flatMap (h : Tells P enc key) : ∀ {l l' : List α} {s t : List σ}, (∀ a ∈ l, P a) → (∀ a ∈ l', P a) →
    l.length = l'.length → l.flatMap enc ++ s = l'.flatMap enc ++ t → l.map key = l'.map key ∧ s = t
  | [], [], _, _, _, _, _, he => ⟨rfl, he⟩
  | a :: l, b :: l', s, t, hl, hl', hlen, he => by
    rw [flatMap_cons, flatMap_cons, append_assoc, append_assoc] at he
    obtain ⟨hk, he⟩ := h a b _ _ (hl a mem_cons_self) (hl' b mem_cons_self) he
    obtain ⟨hks, hs⟩ := h.flatMap (forall_mem_cons.1 hl).2 (forall_mem_cons.1 hl').2
      (Nat.succ.inj hlen) he
    exact ⟨by rw [map_cons, map_cons, hk, hks], hs⟩

/-- **Counted lists.** -/
theorem Tells.counted (h : Tells P enc key) {N : Nat} {count : Nat → List σ} (hc : Tells (· ≤ N) count id) {l l' : List α}
    {s t : List σ} (hlen : l.length ≤ N) (hlen' : l'.length ≤ N) (hl : ∀ a ∈ l, P a) (hl' : ∀ a ∈ l', P a)
    (he : count l.length ++ (l.flatMap enc ++ s) = count l'.length ++ (l'.flatMap enc ++ t)) :
    l.map key = l'.map key ∧ s = t := by
  obtain ⟨hn, he⟩ := hc _ _ _ _ hlen hlen' he
  exact h.flatMap hl hl' hn he

/-- Lists with one key have one code, if the key says what the code is. -/
theorem flatMap_eq_of_map_eq (hf : ∀ a b, key a = key b → enc a = enc b) : ∀ {l l' : List α}, l.map key = l'.map key →
    l.flatMap enc = l'.flatMap enc
  | [], [], _ => rfl
  | a :: l, b :: l', h => by
    obtain ⟨h1, h2⟩ := cons.inj h
    rw [flatMap_cons, flatMap_cons, hf a b h1, flatMap_eq_of_map_eq hf h2]

end Hipfire.Codec
