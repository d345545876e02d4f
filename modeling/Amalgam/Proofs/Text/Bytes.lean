import Mathlib.Tactic.SplitIfs

/-!
# Texts in the order of their bytes

Texts are compared character by character, by code points. The encoding keeps
this order: of two characters the one with the smaller code point has the
smaller bytes, and neither encoding starts with the other. So texts, and lists
of texts, come in the order of their bytes:

* `bytes_lt`: a text that comes before another one does so by its bytes;
* `map_bytes_lt`: the same for lists of texts, compared text by text.
-/

namespace Amalgam.Text

/-- The bytes of a text. -/
def bytes (text : String) : List UInt8 :=
  text.toUTF8.data.toList

theorem bytes_eq (text : String) : bytes text = text.toList.flatMap String.utf8EncodeChar := by
  have hencode : text.toUTF8 = (text.toList.flatMap String.utf8EncodeChar).toByteArray :=
    String.utf8Encode_toList.symm
  rw [bytes, hencode, List.toList_data_toByteArray]

/-! ## Characters -/

theorem digits_lt {v w : Nat} (h : v < w) : v / 64 < w / 64 ∨ v / 64 = w / 64 ∧ v % 64 < w % 64 := by
  omega

/-- The bytes of two characters differ in the direction of their code points,
whatever follows them. -/
theorem utf8EncodeChar_append_lt {c d : Char} (h : c < d) (xs ys : List UInt8) :
    String.utf8EncodeChar c ++ xs < String.utf8EncodeChar d ++ ys := by
  have hlt : c.val.toNat < d.val.toNat := h
  have hle : d.val.toNat < 1114112 := by
    have hvalid := d.valid
    simp only [UInt32.isValidChar, Nat.isValidChar] at hvalid
    omega
  simp only [String.utf8EncodeChar]
  generalize c.val.toNat = v at hlt
  generalize d.val.toNat = w at hlt hle
  have digits (n : Nat) : n / 4096 = n / 64 / 64 ∧ n / 262144 = n / 64 / 64 / 64 := by omega
  simp only [(digits _).1, (digits _).2]
  have hlast := digits_lt hlt
  have hsecond := @digits_lt (v / 64) (w / 64)
  have hthird := @digits_lt (v / 64 / 64) (w / 64 / 64)
  -- the first bytes tell the lengths apart; of one length, the first byte that
  -- differs decides
  split_ifs <;>
    simp (disch := omega) only [List.cons_append, List.nil_append, List.cons_lt_cons_iff,
      UInt8.lt_iff_toNat_lt, ← UInt8.toNat_inj, UInt8.toNat_ofNat', Nat.mod_eq_of_lt] <;>
    omega

/-! ## Texts -/

theorem flatMap_utf8EncodeChar_lt {xs ys : List Char} (h : xs < ys) :
    xs.flatMap String.utf8EncodeChar < ys.flatMap String.utf8EncodeChar := by
  induction h with
  | @nil y ys =>
    obtain ⟨b, bs, hbytes⟩ := List.exists_cons_of_ne_nil (String.utf8EncodeChar_ne_nil (c := y))
    rw [List.flatMap_cons, hbytes]
    exact List.Lex.nil
  | cons _ ih => exact List.append_left_lt ih
  | rel hlt => exact utf8EncodeChar_append_lt hlt _ _

theorem bytes_lt {s t : String} (h : s < t) : bytes s < bytes t := by
  rw [bytes_eq, bytes_eq]
  exact flatMap_utf8EncodeChar_lt h

theorem map_bytes_lt {xs ys : List String} (h : compare xs ys = .lt) : xs.map bytes < ys.map bytes := by
  induction xs generalizing ys with
  | nil =>
    cases ys with
    | nil => cases h
    | cons y ys => exact List.Lex.nil
  | cons x xs ih =>
    cases ys with
    | nil => cases h
    | cons y ys =>
      rw [List.compare_cons_cons, Ordering.then_eq_lt] at h
      rcases h with hlt | ⟨heq, hlt⟩
      · exact List.Lex.rel (bytes_lt (compareOfLessAndEq_eq_lt.mp hlt))
      · obtain rfl : x = y := Std.compare_eq_iff_eq.mp heq
        exact List.Lex.cons (ih hlt)

end Amalgam.Text
