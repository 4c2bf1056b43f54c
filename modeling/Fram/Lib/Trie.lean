import Mathlib.Tactic

/-!
# Tries of handles

Maps keyed up to an equality test, and tries of a fixed depth made of them, whose leaves are lists of handles. The test need not be
reflexive: an entry under a key that is not equal to itself is never found by that key, and is still listed where its whole branch is.

`mem_probe_add` says what a trie holds: a probe by a prefix of the keys gives the handles added under keys that match the prefix.
-/

namespace Trie

variable {κ ν : Type}

/-! ## Maps keyed up to a test -/

/-- The value under a key. -/
def find (same : κ → κ → Bool) (entries : List (κ × ν)) (key : κ) : Option ν := (entries.find? fun e => same e.1 key).map (·.2)

/-- The map with the value under a key replaced by what `f` makes of it, or of nothing. -/
def update (same : κ → κ → Bool) (key : κ) (f : Option ν → ν) : List (κ × ν) → List (κ × ν)
  | [] => [(key, f none)]
  | e :: rest => if same e.1 key = true then (e.1, f (some e.2)) :: rest else e :: update same key f rest

section Update

variable {same : κ → κ → Bool} (hsymm : ∀ a b, same a b = true → same b a = true)
  (htrans : ∀ a b c, same a b = true → same b c = true → same a c = true)

include hsymm htrans

/-- Two keys that are equal are equal to the same keys. -/
theorem same_congr {a b : κ} (h : same a b = true) (c : κ) : same a c = same b c := by
  rw [Bool.eq_iff_iff]
  exact ⟨fun hc => htrans b a c (hsymm a b h) hc, fun hc => htrans a b c h hc⟩

theorem find_congr {a b : κ} (h : same a b = true) (entries : List (κ × ν)) : find same entries a = find same entries b := by
  have hkey : (fun e : κ × ν => same e.1 a) = fun e => same e.1 b := by
    funext e
    rw [Bool.eq_iff_iff]
    exact ⟨fun hc => htrans e.1 a b hc h, fun hc => htrans e.1 b a hc (hsymm a b h)⟩
  rw [find, find, hkey]

theorem find_update (entries : List (κ × ν)) (key key' : κ) (f : Option ν → ν) : find same (update same key f entries) key' =
      if same key key' = true then some (f (find same entries key)) else find same entries key' := by
  induction entries with
  | nil =>
    by_cases h : same key key' = true <;> simp [update, find, h]
  | cons e rest ih =>
    by_cases hk : same e.1 key = true
    · have hcongr := same_congr hsymm htrans hk key'
      by_cases h : same key key' = true
      · have he : same e.1 key' = true := hcongr.trans h
        simp [update, find, hk, h, he]
      · have he : ¬ same e.1 key' = true := by rwa [hcongr]
        simp [update, find, hk, h, he]
    · have hrest : find same (e :: rest) key = find same rest key := by simp [find, hk]
      rw [update, if_neg hk, hrest]
      by_cases he : same e.1 key' = true
      · have h : ¬ same key key' = true := fun h => hk (htrans _ _ _ he (hsymm _ _ h))
        simp [find, he, h]
      · have h1 : find same (e :: update same key f rest) key' = find same (update same key f rest) key' := by simp [find, he]
        have h2 : find same (e :: rest) key' = find same rest key' := by simp [find, he]
        rw [h1, h2, ih]

omit hsymm htrans in
/-- What the values of a map show, when the replaced value shows what the old one did and one thing more. -/
theorem exists_update {X : ν → Prop} {c : Prop} (entries : List (κ × ν)) (key : κ) (f : Option ν → ν)
    (hf : ∀ o, X (f o) ↔ (∃ v, o = some v ∧ X v) ∨ c) : (∃ e ∈ update same key f entries, X e.2) ↔ (∃ e ∈ entries, X e.2) ∨ c := by
  induction entries with
  | nil => simp [update, hf]
  | cons e rest ih =>
    rw [update]
    split
    · simp only [List.exists_mem_cons_iff, hf, Option.some.injEq, exists_eq_left']
      rw [or_right_comm]
    · simp only [List.exists_mem_cons_iff, ih, or_assoc]

end Update

/-! ## Tries -/

/-- A trie of a depth: at depth zero a list of handles, else a map to tries one level down. -/
def Levels (κ : Type) : Nat → Type
  | 0 => List Nat
  | depth + 1 => List (κ × Levels κ depth)

/-- The handles at a leaf. -/
def Levels.leaf (trie : Levels κ 0) : List Nat := trie

/-- The entries of a node. -/
def Levels.node {depth : Nat} (trie : Levels κ (depth + 1)) : List (κ × Levels κ depth) := trie

/-- A leaf with its handles. -/
def ofLeaf (handles : List Nat) : Levels κ 0 := handles

/-- A node with its entries. -/
def ofNode {depth : Nat} (entries : List (κ × Levels κ depth)) : Levels κ (depth + 1) := entries

@[simp] theorem leaf_ofLeaf (handles : List Nat) : (ofLeaf handles : Levels κ 0).leaf = handles := rfl

@[simp] theorem node_ofNode {depth : Nat} (entries : List (κ × Levels κ depth)) : (ofNode entries).node = entries := rfl

/-- The trie that holds nothing. -/
def empty : (depth : Nat) → Levels κ depth
  | 0 => ofLeaf []
  | _ + 1 => ofNode []

/-- The handles of a set, in order. -/
def orderedHandles (handles : List Nat) : List Nat := handles.dedup.mergeSort (· ≤ ·)

/-- All handles of a trie. -/
def handles : (depth : Nat) → Levels κ depth → List Nat
  | 0, trie => trie.leaf
  | depth + 1, trie => orderedHandles (trie.node.flatMap fun e => handles depth e.2)

/-- The trie with a handle added under as many keys as it is deep. -/
def add (same : κ → κ → Bool) : (depth : Nat) → Levels κ depth → List κ → Nat → Levels κ depth
  | 0, trie, _, handle => ofLeaf (trie.leaf ++ [handle])
  | _ + 1, trie, [], _ => trie
  | depth + 1, trie, key :: keys, handle =>
    ofNode (update same key (fun child => add same depth (child.getD (empty depth)) keys handle) trie.node)

/-- The handles under the keys that a prefix matches. -/
def probe (same : κ → κ → Bool) : (depth : Nat) → Levels κ depth → List κ → List Nat
  | depth, trie, [] => handles depth trie
  | 0, _, _ :: _ => []
  | depth + 1, trie, key :: keys =>
    match find same trie.node key with
    | some child => probe same depth child keys
    | none => []

/-- The keys start with a list equal to the prefix. -/
def matchesPrefix (same : κ → κ → Bool) : List κ → List κ → Bool
  | _, [] => true
  | [], _ :: _ => false
  | key :: keys, wanted :: rest => same key wanted && matchesPrefix same keys rest

@[simp] theorem mem_orderedHandles {handle : Nat} {hs : List Nat} : handle ∈ orderedHandles hs ↔ handle ∈ hs := by
  rw [orderedHandles, (List.mergeSort_perm _ _).mem_iff, List.mem_dedup]

theorem mem_probe_empty {same : κ → κ → Bool} {depth : Nat} {wanted : List κ} {h : Nat} : h ∉ probe same depth (empty depth) wanted := by
  cases depth <;> cases wanted <;> simp [probe, empty, handles, find]

theorem mem_handles_add {same : κ → κ → Bool} {depth : Nat} (trie : Levels κ depth) {keys : List κ} (hk : keys.length = depth)
    (handle h : Nat) : h ∈ handles depth (add same depth trie keys handle) ↔ h ∈ handles depth trie ∨ h = handle := by
  induction depth generalizing keys with
  | zero => simp [handles, add]
  | succ depth ih =>
    cases keys with
    | nil => cases hk
    | cons key keys =>
      simp only [handles, add, mem_orderedHandles, List.mem_flatMap, node_ofNode]
      refine exists_update (X := fun t => h ∈ handles depth t) _ key _ fun o => ?_
      rw [ih _ (by simpa using hk)]
      cases o with
      | none =>
        have hempty : h ∉ handles depth (empty depth : Levels κ depth) := by
          cases depth <;> simp [handles, empty]
        simp [hempty]
      | some v => simp

/-- A probe of a trie with a handle added gives the handle when its keys match the prefix, and what the probe gave before. -/
theorem mem_probe_add {same : κ → κ → Bool} (hsymm : ∀ a b, same a b = true → same b a = true)
    (htrans : ∀ a b c, same a b = true → same b c = true → same a c = true) {depth : Nat} (trie : Levels κ depth) {keys : List κ}
    (hk : keys.length = depth) (handle : Nat) (wanted : List κ) (h : Nat) : h ∈ probe same depth (add same depth trie keys handle) wanted ↔
      h ∈ probe same depth trie wanted ∨ (h = handle ∧ matchesPrefix same keys wanted = true) := by
  induction depth generalizing keys wanted with
  | zero =>
    cases wanted with
    | nil => simp [probe, mem_handles_add trie hk, matchesPrefix]
    | cons w wanted =>
      cases List.length_eq_zero_iff.1 hk
      simp [probe, matchesPrefix]
  | succ depth ih =>
    cases wanted with
    | nil => simp [probe, mem_handles_add trie hk, matchesPrefix]
    | cons w wanted =>
      cases keys with
      | nil => cases hk
      | cons key keys =>
        have hkeys : keys.length = depth := by simpa using hk
        simp only [probe, add, node_ofNode, find_update hsymm htrans, matchesPrefix, Bool.and_eq_true]
        by_cases hw : same key w = true
        · rw [if_pos hw, ← find_congr hsymm htrans hw]
          cases find same trie.node key with
          | none => simp [ih _ hkeys, hw, mem_probe_empty]
          | some child => simp [ih _ hkeys, hw]
        · simp [hw]

end Trie
