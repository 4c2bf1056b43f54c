import Mathlib.Tactic

/-!
# Chained hash tables

Names are numbered as they come, and each slot of a table heads a chain of the names that hash to it, newest first. A leaf of items
goes with each name. Names are compared by a relation that need not be reflexive; when it is symmetric and transitive and respects
the hash, a probe finds exactly the items whose names it matches, in order (`Holds.leaf_eq`).
-/

namespace Chained

variable {ν α : Type}

/-- The slot of a hash. -/
def slot (width : Nat) (hash : Int) : Nat := (hash % (width : Int)).toNat

theorem slot_lt {width : Nat} (hw : 0 < width) (hash : Int) : slot width hash < width := by
  unfold slot
  have h1 := Int.emod_nonneg hash (b := (width : Int)) (by omega)
  have h2 := Int.emod_lt_of_pos hash (b := (width : Int)) (by omega)
  omega

/-! ## Chains -/

/-- Along a chain from a number, the first number that passes the test. -/
def walk (test : Nat → Bool) (chain : List (Option Nat)) : Nat → Option Nat → Option Nat
  | 0, _ => none
  | _ + 1, none => none
  | fuel + 1, some k => if test k then some k else walk test chain fuel (chain[k]?.join)

/-- The heads and the chain with one more number, of a hash. -/
def link (width : Nat) (heads chain : List (Option Nat)) (hash : Int) : List (Option Nat) × List (Option Nat) :=
  (heads.set (slot width hash) (some chain.length), chain ++ [heads[slot width hash]?.join])

/-- The heads and the chain of numbers, by their hashes. -/
def linkAll (width : Nat) (hashes : List Int) : List (Option Nat) × List (Option Nat) :=
  hashes.foldl (fun (heads, chain) hash => link width heads chain hash) (List.replicate width none, [])

/-- The newest of the first numbers in a slot. -/
def newest (width : Nat) (hashes : List Int) (w : Nat) : Nat → Option Nat
  | 0 => none
  | n + 1 => if hashes[n]?.any fun hash => slot width hash == w then some n else newest width hashes w n

/-- The heads and the chain link the numbers of the hashes. -/
structure Linked (width : Nat) (hashes : List Int) (heads chain : List (Option Nat)) : Prop where
  width_pos : 0 < width
  length_heads : heads.length = width
  length_chain : chain.length = hashes.length
  heads : ∀ w, w < width → heads[w]? = some (newest width hashes w hashes.length)
  chain : ∀ k hash, hashes[k]? = some hash → chain[k]? = some (newest width hashes (slot width hash) k)

section Chains

variable {width : Nat} {hashes : List Int} {heads chain : List (Option Nat)}

theorem newest_append (hashes more : List Int) (w : Nat) {n : Nat} (hn : n ≤ hashes.length) :
    newest width (hashes ++ more) w n = newest width hashes w n := by
  induction n with
  | zero => rfl
  | succ n ih =>
    simp only [newest]
    rw [ih (by omega), List.getElem?_append_left (by omega)]

theorem linked_nil (hw : 0 < width) : Linked width [] (List.replicate width none) [] :=
  ⟨hw, by simp, rfl, fun w h => by simp [h, newest], by simp⟩

theorem Linked.link (h : Linked width hashes heads chain) (hash : Int) :
    Linked width (hashes ++ [hash]) (link width heads chain hash).1 (link width heads chain hash).2 := by
  have hs := slot_lt h.width_pos hash
  refine ⟨h.width_pos, by simpa [Chained.link] using h.length_heads, by simp [Chained.link, h.length_chain], ?_, ?_⟩
  · intro w hw
    have hl : w < heads.length := h.length_heads.symm ▸ hw
    simp only [Chained.link, List.length_append, List.length_singleton, newest, List.getElem?_concat_length]
    rw [List.getElem?_set]
    by_cases he : slot width hash = w
    · simp [he, hl, h.length_chain]
    · rw [if_neg he, newest_append _ _ _ (Nat.le_refl _), h.heads w hw]
      simp [he]
  · intro k g hk
    simp only [Chained.link]
    rcases Nat.lt_or_ge k hashes.length with hlt | hge
    · rw [List.getElem?_append_left hlt] at hk
      rw [List.getElem?_append_left (h.length_chain ▸ hlt), newest_append _ _ _ (Nat.le_of_lt hlt), h.chain k g hk]
    · have hk' := (List.getElem?_eq_some_iff.1 hk).1
      obtain rfl : k = hashes.length := by simp at hk'; omega
      rw [List.getElem?_concat_length] at hk
      cases hk
      rw [newest_append _ _ _ (Nat.le_refl _), ← h.length_chain, List.getElem?_concat_length, h.heads _ hs]
      simp [h.length_chain]

theorem linked_linkAll (hw : 0 < width) (hashes : List Int) : Linked width hashes (linkAll width hashes).1 (linkAll width hashes).2 := by
  induction hashes using List.reverseRecOn with
  | nil => exact linked_nil hw
  | append_singleton hashes hash ih =>
    unfold linkAll at ih ⊢
    rw [List.foldl_append]
    exact ih.link hash

/-- What a walk finds: the newest number in the slot that passes the test. -/
theorem Linked.walk_newest (h : Linked width hashes heads chain) (test : Nat → Bool) {w n fuel : Nat} (hn : n ≤ hashes.length)
    (hf : n ≤ fuel) : match walk test chain fuel (newest width hashes w n) with
    | some k => k < n ∧ test k = true ∧ (∃ hash, hashes[k]? = some hash ∧ slot width hash = w) ∧
        ∀ k', k < k' → k' < n → ∀ hash, hashes[k']? = some hash → slot width hash = w → test k' = false
    | none => ∀ k' < n, ∀ hash, hashes[k']? = some hash → slot width hash = w → test k' = false := by
  induction n using Nat.strong_induction_on generalizing fuel with
  | _ n ih =>
    cases n with
    | zero => cases fuel <;> simp [newest, walk]
    | succ n =>
      cases fuel with
      | zero => omega
      | succ fuel =>
        obtain ⟨hash, hget⟩ : ∃ hash, hashes[n]? = some hash := ⟨_, List.getElem?_eq_getElem (by omega)⟩
        by_cases hslot : slot width hash = w
        · have hnew : newest width hashes w (n + 1) = some n := by simp [newest, hget, hslot]
          rw [hnew]
          simp only [walk]
          by_cases ht : test n = true
          · rw [if_pos ht]
            exact ⟨by omega, ht, ⟨_, hget, hslot⟩, fun k' h1 h2 => by omega⟩
          · rw [if_neg ht, h.chain n _ hget, hslot]
            have ih' := ih n (by omega) (by omega) (show n ≤ fuel by omega)
            revert ih'
            simp only [Option.join_some]
            cases walk test chain fuel (newest width hashes w n) with
            | some k =>
              rintro ⟨h1, h2, h3, h4⟩
              refine ⟨by omega, h2, h3, fun k' g1 g2 hash g3 g4 => ?_⟩
              rcases Nat.lt_or_ge k' n with hlt | hge
              · exact h4 k' g1 hlt hash g3 g4
              · obtain rfl : k' = n := by omega
                simpa using ht
            | none =>
              intro h1 k' g2 hash g3 g4
              rcases Nat.lt_or_ge k' n with hlt | hge
              · exact h1 k' hlt hash g3 g4
              · obtain rfl : k' = n := by omega
                simpa using ht
        · have hnew : newest width hashes w (n + 1) = newest width hashes w n := by simp [newest, hget, hslot]
          rw [hnew]
          have ih' := ih n (by omega) (by omega) (show n ≤ fuel + 1 by omega)
          revert ih'
          have hlast : ∀ hash, hashes[n]? = some hash → slot width hash ≠ w := by
            intro hash g
            rw [hget] at g
            cases g
            exact hslot
          cases walk test chain (fuel + 1) (newest width hashes w n) with
          | some k =>
            rintro ⟨h1, h2, h3, h4⟩
            refine ⟨by omega, h2, h3, fun k' g1 g2 hash g3 g4 => ?_⟩
            rcases Nat.lt_or_ge k' n with hlt | hge
            · exact h4 k' g1 hlt hash g3 g4
            · obtain rfl : k' = n := by omega
              exact absurd g4 (hlast hash g3)
          | none =>
            intro h1 k' g2 hash g3 g4
            rcases Nat.lt_or_ge k' n with hlt | hge
            · exact h1 k' hlt hash g3 g4
            · obtain rfl : k' = n := by omega
              exact absurd g4 (hlast hash g3)

/-- From the head of a hash's slot, the newest number that passes a test which only numbers of that hash pass. -/
theorem Linked.walk_eq (h : Linked width hashes heads chain) {test : Nat → Bool} {hash : Int}
    (ht : ∀ k, test k = true → hashes[k]? = some hash ∨ hashes.length ≤ k) {fuel : Nat} (hf : hashes.length ≤ fuel) :
    match walk test chain fuel (heads[slot width hash]?.join) with
    | some k => k < hashes.length ∧ test k = true ∧ ∀ k', k < k' → k' < hashes.length → test k' = false
    | none => ∀ k' < hashes.length, test k' = false := by
  rw [h.heads _ (slot_lt h.width_pos hash), Option.join_some]
  have hw := h.walk_newest test (w := slot width hash) (Nat.le_refl _) hf
  have hfalse : ∀ k' < hashes.length, (∀ g, hashes[k']? = some g → slot width g = slot width hash → test k' = false) →
      test k' = false := by
    intro k' hk' hg
    by_contra hne
    rcases ht k' (by simpa using hne) with he | he
    · exact hne (hg hash he rfl)
    · omega
  revert hw
  cases walk test chain fuel (newest width hashes (slot width hash) hashes.length) with
  | some k =>
    rintro ⟨h1, h2, -, h4⟩
    exact ⟨h1, h2, fun k' g1 g2 => hfalse k' g2 (h4 k' g1 g2)⟩
  | none => exact fun h1 k' g => hfalse k' g (h1 k' g)

end Chains

/-! ## Tables -/

/-- A table: names with a leaf of items each, and the chains of the names. -/
structure Table (ν α : Type) where
  width : Nat
  names : List ν
  leaves : List (List α)
  heads : List (Option Nat)
  chain : List (Option Nat)

/-- The empty table of a width. -/
def Table.empty (width : Nat) : Table ν α := ⟨width, [], [], List.replicate width none, []⟩

/-- The number of the newest name in a hash's slot that passes a test. -/
def Table.find (t : Table ν α) (hash : Int) (test : ν → Bool) : Option Nat :=
  walk (fun k => t.names[k]?.any test) t.chain t.names.length (t.heads[slot t.width hash]?.join)

/-- The items of the name that a probe finds. -/
def Table.leaf (t : Table ν α) (hash : Int) (test : ν → Bool) : List α :=
  match t.find hash test with
  | some k => t.leaves[k]?.getD []
  | none => []

/-- The table with one more item under a name. A new name widens the table when there are more than `load` names a slot. -/
def Table.insert (hash : ν → Int) (same : ν → ν → Bool) (load : Nat) (t : Table ν α) (name : ν) (item : α) : Table ν α :=
  match t.find (hash name) (same name) with
  | some k => { t with leaves := t.leaves.set k (t.leaves[k]?.getD [] ++ [item]) }
  | none =>
    let names := t.names ++ [name]
    if load * t.width < names.length then
      let (heads, chain) := linkAll (2 * t.width) (names.map hash)
      ⟨2 * t.width, names, t.leaves ++ [[item]], heads, chain⟩
    else
      let (heads, chain) := link t.width t.heads t.chain (hash name)
      ⟨t.width, names, t.leaves ++ [[item]], heads, chain⟩

/-- The table of named items. -/
def build (hash : ν → Int) (same : ν → ν → Bool) (load width : Nat) (items : List (ν × α)) : Table ν α :=
  items.foldl (fun t item => t.insert hash same load item.1 item.2) (.empty width)

/-- The relation is symmetric and transitive, and respects the hash. -/
structure Respects (hash : ν → Int) (same : ν → ν → Bool) : Prop where
  symm : ∀ a b, same a b = true → same b a = true
  trans : ∀ a b c, same a b = true → same b c = true → same a c = true
  hash : ∀ a b, same a b = true → hash a = hash b

/-- The table holds the items under the names that match theirs. -/
structure Holds (hash : ν → Int) (same : ν → ν → Bool) (t : Table ν α) (items : List (ν × α)) : Prop where
  linked : Linked t.width (t.names.map hash) t.heads t.chain
  leaves : t.leaves.length = t.names.length
  apart : ∀ (i j : Nat) a b, t.names[i]? = some a → t.names[j]? = some b → same a b = true → i = j
  leaf : ∀ (k : Nat) a, t.names[k]? = some a → same a a = true →
    t.leaves[k]? = some ((items.filter fun x => same a x.1).map (·.2))
  known : ∀ x ∈ items, same x.1 x.1 = true → ∃ a ∈ t.names, same a x.1 = true

section Tables

variable {hash : ν → Int} {same : ν → ν → Bool} {t : Table ν α} {items : List (ν × α)}

/-- What a probe finds: the one name that passes its test. -/
theorem Holds.find (h : Holds hash same t items) {g : Int} {test : ν → Bool} (hg : ∀ a, test a = true → hash a = g) :
    match t.find g test with | some k => ∃ a, t.names[k]? = some a ∧ test a = true | none => ∀ a ∈ t.names, test a = false := by
  have ht : ∀ k, t.names[k]?.any test = true → (t.names.map hash)[k]? = some g ∨ (t.names.map hash).length ≤ k := by
    intro k hk
    left
    obtain ⟨a, ha, ht⟩ := (Option.any_eq_true _ _).1 hk
    rw [List.getElem?_map, ha, Option.map_some, hg _ ht]
  have hw := h.linked.walk_eq ht (by simp : (t.names.map hash).length ≤ t.names.length)
  unfold Table.find
  revert hw
  cases walk _ t.chain t.names.length (t.heads[slot t.width g]?.join) with
  | some k =>
    rintro ⟨hk, ht, -⟩
    rw [List.length_map] at hk
    refine ⟨t.names[k], List.getElem?_eq_getElem hk, ?_⟩
    simpa [List.getElem?_eq_getElem hk] using ht
  | none =>
    intro hn a ha
    obtain ⟨k, hk, rfl⟩ := List.getElem_of_mem ha
    simpa [List.getElem?_eq_getElem hk] using hn k (by simpa using hk)

theorem holds_empty {width : Nat} (hw : 0 < width) : Holds hash same (.empty width : Table ν α) [] :=
  ⟨linked_nil hw, rfl, by simp [Table.empty], by simp [Table.empty], by simp⟩

/-- One more item under a name that is known. -/
theorem Holds.add (h : Holds hash same t items) (hr : Respects hash same) {k : Nat} {a name : ν} (hk : t.names[k]? = some a)
    (ha : same name a = true) (item : α) :
    Holds hash same { t with leaves := t.leaves.set k (t.leaves[k]?.getD [] ++ [item]) } (items ++ [(name, item)]) := by
  have han := hr.symm _ _ ha
  have haa := hr.trans _ _ _ han ha
  refine ⟨h.linked, by simpa using h.leaves, h.apart, ?_, ?_⟩
  · intro k' b hb hbb
    rw [List.getElem?_set]
    by_cases he : k = k'
    · subst he
      obtain rfl : a = b := Option.some.inj (hk.symm.trans hb)
      have hl : k < t.leaves.length := h.leaves ▸ (List.getElem?_eq_some_iff.1 hk).1
      rw [if_pos rfl, if_pos hl, h.leaf k a hk haa, Option.getD_some]
      simp [List.filter_append, han]
    · have hne : same b name = false := by
        by_contra hs
        rw [Bool.not_eq_false] at hs
        exact he (h.apart k k' a b hk hb (hr.trans _ _ _ han (hr.symm _ _ hs)))
      rw [if_neg he, h.leaf k' b hb hbb]
      simp [List.filter_append, hne]
  · intro x hx hxx
    rcases List.mem_append.1 hx with hx | hx
    · exact h.known x hx hxx
    · obtain rfl := List.mem_singleton.1 hx
      exact ⟨a, List.mem_of_getElem? hk, han⟩

/-- One more item under a name that is not known. -/
theorem Holds.addName (h : Holds hash same t items) (hr : Respects hash same) {name : ν} (hn : ∀ a ∈ t.names, same name a = false)
    (item : α) {width : Nat} {heads chain : List (Option Nat)} (hl : Linked width ((t.names ++ [name]).map hash) heads chain) :
    Holds hash same ⟨width, t.names ++ [name], t.leaves ++ [[item]], heads, chain⟩ (items ++ [(name, item)]) := by
  have hn' : ∀ a ∈ t.names, same a name = false := by
    intro a ha
    by_contra hs
    rw [Bool.not_eq_false] at hs
    exact absurd (hr.symm _ _ hs) (by simp [hn a ha])
  have hcase : ∀ {k : Nat} {a : ν}, (t.names ++ [name])[k]? = some a →
      (k < t.names.length ∧ t.names[k]? = some a) ∨ (k = t.names.length ∧ a = name) := by
    intro k a hk
    rcases Nat.lt_or_ge k t.names.length with hlt | hge
    · exact .inl ⟨hlt, by rwa [List.getElem?_append_left hlt] at hk⟩
    · have hk' := (List.getElem?_eq_some_iff.1 hk).1
      obtain rfl : k = t.names.length := by simp at hk'; omega
      rw [List.getElem?_concat_length] at hk
      cases hk
      exact .inr ⟨rfl, rfl⟩
  refine ⟨hl, by simp [h.leaves], ?_, ?_, ?_⟩
  · intro i j a b hi hj hab
    rcases hcase hi with ⟨-, hi'⟩ | ⟨rfl, rfl⟩ <;> rcases hcase hj with ⟨-, hj'⟩ | ⟨rfl, rfl⟩
    · exact h.apart i j a b hi' hj' hab
    · exact absurd hab (by simp [hn' a (List.mem_of_getElem? hi')])
    · exact absurd hab (by simp [hn b (List.mem_of_getElem? hj')])
    · rfl
  · intro k a hk haa
    rcases hcase hk with ⟨hlt, hk⟩ | ⟨rfl, rfl⟩
    · rw [List.getElem?_append_left (h.leaves ▸ hlt), h.leaf k a hk haa]
      simp [List.filter_append, hn' a (List.mem_of_getElem? hk)]
    · rw [← h.leaves, List.getElem?_concat_length]
      have hnone : items.filter (fun x => same a x.1) = [] := by
        rw [List.filter_eq_nil_iff]
        intro x hx hs
        obtain ⟨b, hb, hbx⟩ := h.known x hx (hr.trans _ _ _ (hr.symm _ _ hs) hs)
        exact absurd (hr.trans _ _ _ hs (hr.symm _ _ hbx)) (by simp [hn b hb])
      simp [List.filter_append, hnone, haa]
  · intro x hx hxx
    rcases List.mem_append.1 hx with hx | hx
    · obtain ⟨a, ha, hax⟩ := h.known x hx hxx
      exact ⟨a, List.mem_append_left _ ha, hax⟩
    · obtain rfl := List.mem_singleton.1 hx
      exact ⟨name, List.mem_append_right _ (List.mem_singleton.2 rfl), hxx⟩

theorem Holds.insert (h : Holds hash same t items) (hr : Respects hash same) (load : Nat) (name : ν) (item : α) :
    Holds hash same (t.insert hash same load name item) (items ++ [(name, item)]) := by
  have hf := h.find fun a (ha : same name a = true) => (hr.hash _ _ ha).symm
  unfold Table.insert
  revert hf
  cases t.find (hash name) (same name) with
  | some k =>
    rintro ⟨a, hk, ha⟩
    exact h.add hr hk ha item
  | none =>
    intro hn
    dsimp only
    split
    · exact h.addName hr hn item (linked_linkAll (by have := h.linked.width_pos; omega) _)
    · refine h.addName hr hn item ?_
      rw [List.map_append]
      exact h.linked.link (hash name)

theorem holds_build (hr : Respects hash same) (load : Nat) {width : Nat} (hw : 0 < width) (items : List (ν × α)) :
    Holds hash same (build hash same load width items) items := by
  induction items using List.reverseRecOn with
  | nil => exact holds_empty hw
  | append_singleton items item ih =>
    unfold build at ih ⊢
    rw [List.foldl_append]
    exact ih.insert hr load item.1 item.2

/-- A probe whose test matches like a name finds the items whose names it matches, in order. -/
theorem Holds.leaf_eq (h : Holds hash same t items) {g : Int} {test : ν → Bool} (hg : ∀ a, test a = true → hash a = g)
    (hself : ∀ a b, test a = true → test b = true → same a b = true) (hclosed : ∀ a b, test a = true → same a b = true → test b = true)
    (hback : ∀ a b, test b = true → same a b = true → test a = true) : t.leaf g test = (items.filter fun x => test x.1).map (·.2) := by
  have hf := h.find hg
  unfold Table.leaf
  revert hf
  cases t.find g test with
  | some k =>
    rintro ⟨a, hk, ha⟩
    dsimp only
    rw [h.leaf k a hk (hself a a ha ha), Option.getD_some]
    congr 1
    refine List.filter_congr fun x _ => ?_
    rw [Bool.eq_iff_iff]
    exact ⟨hclosed a x.1 ha, fun hx => hself a x.1 ha hx⟩
  | none =>
    intro hn
    dsimp only
    rw [List.filter_eq_nil_iff.2, List.map_nil]
    intro x hx ht
    obtain ⟨a, ha, hax⟩ := h.known x hx (hself _ _ ht ht)
    exact absurd (hback a x.1 ht hax) (by simp [hn a ha])

end Tables

end Chained
