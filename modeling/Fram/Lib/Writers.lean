import Fram.Lib.ExceptList
import Fram.Lib.LittleEndian

/-!
# Writers that can be told apart

A writer gives the text of a value, or fails. It is unambiguous when no text it writes is the start of another one: what stands behind
a text then does not matter for telling the value (`Unambiguous.of_length`, `Unambiguous.sized`, `Unambiguous.mapM`).
-/

namespace Writers

open LittleEndian

variable {ε α β : Type}

/-- Two texts of the writer, each with something behind it, are equal only for one value and one rest. -/
def Unambiguous (write : α → Except ε (List β)) : Prop :=
  ∀ ⦃a b : α⦄ ⦃x y r s : List β⦄, write a = .ok x → write b = .ok y → x ++ r = y ++ s → a = b ∧ r = s

/-- A writer of texts of one length is unambiguous when it is injective. -/
theorem Unambiguous.of_length {write : α → Except ε (List β)} {n : Nat} (hlength : ∀ a x, write a = .ok x → x.length = n)
    (hinj : ∀ a b x, write a = .ok x → write b = .ok x → a = b) : Unambiguous write := by
  intro a b x y r s hx hy h
  have hlen : x.length = y.length := by rw [hlength a x hx, hlength b y hy]
  obtain ⟨rfl, hrest⟩ := List.append_inj h hlen
  exact ⟨hinj a b x hx hy, hrest⟩

theorem toBytes_injective {k m n : Nat} (hm : m < 256 ^ k) (hn : n < 256 ^ k) (h : toBytes k m = toBytes k n) : m = n := by
  rw [← ofBytes_toBytes_of_lt hm, h, ofBytes_toBytes_of_lt hn]

/-- A writer of bytes after their count is unambiguous when its count fits and it is injective. -/
theorem Unambiguous.sized {write : α → Except ε (List UInt8)} {encode : α → List UInt8} {k : Nat}
    (hwrite : ∀ a x, write a = .ok x → (encode a).length < 256 ^ k ∧ x = toBytes k (encode a).length ++ encode a)
    (hinj : ∀ a b, encode a = encode b → a = b) : Unambiguous write := by
  intro a b x y r s hx hy h
  obtain ⟨ha, rfl⟩ := hwrite a x hx
  obtain ⟨hb, rfl⟩ := hwrite b y hy
  rw [List.append_assoc, List.append_assoc] at h
  obtain ⟨hcount, htext⟩ := List.append_inj h (by simp)
  have hlen := toBytes_injective ha hb hcount
  obtain ⟨htext, hrest⟩ := List.append_inj htext hlen
  exact ⟨hinj a b htext, hrest⟩

/-- Lists of one length, written value after value. -/
theorem Unambiguous.mapM {write : α → Except ε (List β)} (hw : Unambiguous write) {as bs : List α} {xs ys : List (List β)}
    {r s : List β} (hlen : as.length = bs.length) (hx : as.mapM write = .ok xs) (hy : bs.mapM write = .ok ys)
    (h : xs.flatten ++ r = ys.flatten ++ s) : as = bs ∧ r = s := by
  rw [ExceptList.mapM_eq_ok_iff] at hx hy
  induction hx generalizing bs ys with
  | nil =>
    rw [List.length_nil, eq_comm, List.length_eq_zero_iff] at hlen
    subst hlen
    cases hy
    exact ⟨rfl, by simpa using h⟩
  | cons ha _ ih =>
    cases hy with
    | nil => simp at hlen
    | cons hb hbs =>
      rw [List.flatten_cons, List.flatten_cons, List.append_assoc, List.append_assoc] at h
      obtain ⟨rfl, hrest⟩ := hw ha hb h
      obtain ⟨rfl, hr⟩ := ih (by simpa using hlen) hbs hrest
      exact ⟨rfl, hr⟩

end Writers
