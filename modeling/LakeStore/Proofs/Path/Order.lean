import LakeStore.Path.Basic
import Mathlib.Tactic.SplitIfs

/-!
The order of texts. It is the order of their bytes in UTF-8, and the texts that begin with the same
characters stand together in it.
-/

namespace LakeStore

def utf8 (text : String) : List UInt8 :=
  text.toByteArray.data.toList

theorem utf8_eq_flatMap (text : String) :
    utf8 text = text.toList.flatMap String.utf8EncodeChar := by
  unfold utf8
  rw [← String.utf8Encode_toList, List.utf8Encode]
  simp

theorem cons_ofNat_lt {m n : Nat} (hm : m < 256) (hn : n < 256) (s t : List UInt8) :
    UInt8.ofNat m :: s < UInt8.ofNat n :: t ↔ m < n ∨ m = n ∧ s < t := by
  rw [List.cons_lt_cons_iff, UInt8.lt_iff_toNat_lt, ← UInt8.toNat_inj, UInt8.toNat_ofNat',
    UInt8.toNat_ofNat', Nat.mod_eq_of_lt hm, Nat.mod_eq_of_lt hn]

theorem utf8EncodeChar_append_lt {c d : Char} (h : c < d) (s t : List UInt8) :
    String.utf8EncodeChar c ++ s < String.utf8EncodeChar d ++ t := by
  have hlt : c.val.toNat < d.val.toNat := h
  have hmax : d.val.toNat < 1114112 := by
    cases d.valid with
    | inl hlow => exact Nat.lt_trans hlow (by decide)
    | inr hhigh => exact hhigh.2
  unfold String.utf8EncodeChar
  dsimp only
  generalize c.val.toNat = a at *
  generalize d.val.toNat = b at *
  -- The digits to base 64, from the lowest on: where all higher ones are equal, the lower one is
  -- less.
  have hlow : a / 64 < b / 64 ∨ a / 64 = b / 64 ∧ a % 64 < b % 64 := by omega
  have hmiddle : a / 64 < b / 64 →
      a / 4096 < b / 4096 ∨ a / 4096 = b / 4096 ∧ a / 64 % 64 < b / 64 % 64 := by omega
  have hhigh : a / 4096 < b / 4096 →
      a / 262144 < b / 262144 ∨ a / 262144 = b / 262144 ∧ a / 4096 % 64 < b / 4096 % 64 := by omega
  have hequal : a / 64 = b / 64 → a / 4096 = b / 4096 := by omega
  have hequalHigh : a / 4096 = b / 4096 → a / 262144 = b / 262144 := by omega
  have htop : a / 262144 % 8 = a / 262144 ∧ b / 262144 % 8 = b / 262144 := by omega
  split_ifs
  all_goals
    simp (disch := omega) only [List.cons_append, List.nil_append, cons_ofNat_lt, htop]
    omega

theorem flatMap_utf8EncodeChar_lt {a b : List Char} (h : a < b) :
    a.flatMap String.utf8EncodeChar < b.flatMap String.utf8EncodeChar := by
  induction a generalizing b with
  | nil =>
    cases b with
    | nil => exact absurd h (List.not_lt_nil [])
    | cons d rest =>
      obtain ⟨first, others, hencoded⟩ :=
        List.exists_cons_of_ne_nil (String.utf8EncodeChar_ne_nil (c := d))
      rw [List.flatMap_cons, hencoded]
      exact List.nil_lt_cons _ _
  | cons c front ih =>
    cases b with
    | nil => exact absurd h (List.not_lt_nil _)
    | cons d rest =>
      rw [List.flatMap_cons, List.flatMap_cons]
      rw [List.cons_lt_cons_iff] at h
      cases h with
      | inl hlt => exact utf8EncodeChar_append_lt hlt _ _
      | inr heq =>
        rw [heq.1]
        exact List.append_left_lt (ih heq.2)

theorem utf8_lt_utf8 {a b : String} (h : a < b) : utf8 a < utf8 b := by
  rw [utf8_eq_flatMap, utf8_eq_flatMap]
  exact flatMap_utf8EncodeChar_lt h

theorem prefix_of_between {mark text later : List Char} (hmark : ¬ text < mark)
    (htext : ¬ later < text) (h : mark <+: later) : mark <+: text := by
  induction mark generalizing text later with
  | nil => exact List.nil_prefix
  | cons c mark ih =>
    cases text with
    | nil => exact absurd (List.nil_lt_cons c mark) hmark
    | cons d text =>
      obtain ⟨rest, rfl⟩ := h
      rw [List.cons_append, List.cons_lt_cons_iff, not_or] at htext
      rw [List.cons_lt_cons_iff, not_or] at hmark
      have hsame : c = d := Char.le_antisymm (Char.not_lt.mp hmark.1) (Char.not_lt.mp htext.1)
      subst hsame
      have hbelow : ¬ text < mark := fun hlt => hmark.2 ⟨rfl, hlt⟩
      have habove : ¬ mark ++ rest < text := fun hlt => htext.2 ⟨rfl, hlt⟩
      rw [List.cons_prefix_cons]
      exact ⟨rfl, ih hbelow habove (List.prefix_append mark rest)⟩

end LakeStore
