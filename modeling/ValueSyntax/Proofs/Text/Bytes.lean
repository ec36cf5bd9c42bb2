import Mathlib.Data.String.Basic

namespace ValueSyntax.Text

def bytes (text : String) : List UInt8 := text.toByteArray.data.toList

theorem bytes_eq_flatMap (text : String) : bytes text = text.toList.flatMap String.utf8EncodeChar := by
  rw [bytes, ← String.utf8Encode_toList, List.utf8Encode, List.toList_data_toByteArray]

theorem ofNat_lt_iff {a b : Nat} (ha : a < 256) (hb : b < 256) :
    UInt8.ofNat a < UInt8.ofNat b ↔ a < b := by
  rw [UInt8.lt_iff_toNat_lt, UInt8.toNat_ofNat', UInt8.toNat_ofNat', Nat.mod_eq_of_lt ha,
    Nat.mod_eq_of_lt hb]

theorem ofNat_eq_iff {a b : Nat} (ha : a < 256) (hb : b < 256) :
    UInt8.ofNat a = UInt8.ofNat b ↔ a = b := by
  rw [← UInt8.toNat_inj, UInt8.toNat_ofNat', UInt8.toNat_ofNat', Nat.mod_eq_of_lt ha,
    Nat.mod_eq_of_lt hb]

theorem encode_lt {c d : Char} (h : c < d) (l m : List UInt8) :
    String.utf8EncodeChar c ++ l < String.utf8EncodeChar d ++ m := by
  have hlt : c.val.toNat < d.val.toNat := UInt32.lt_iff_toNat_lt.mp (Char.lt_def.mp h)
  have hd : d.val.toNat < 1114112 := by
    rcases d.valid with hv | hv <;> omega
  unfold String.utf8EncodeChar
  generalize c.val.toNat = v at *
  generalize d.val.toNat = w at *
  dsimp only
  -- All digits are remainders of repeated division by 64.
  have hdiv₂ (n : Nat) : n / 4096 = n / 64 / 64 := by rw [Nat.div_div_eq_div_mul]
  have hdiv₃ (n : Nat) : n / 262144 = n / 64 / 64 / 64 := by
    rw [Nat.div_div_eq_div_mul, Nat.div_div_eq_div_mul]
  split_ifs <;>
    simp (disch := omega) only [List.cons_append, List.nil_append, List.cons_lt_cons_iff,
      ofNat_lt_iff, ofNat_eq_iff, hdiv₂, hdiv₃] <;> omega

theorem flatMap_encode_lt : ∀ {l m : List Char}, l < m →
    l.flatMap String.utf8EncodeChar < m.flatMap String.utf8EncodeChar
  | _, [], h => absurd h (List.not_lt_nil _)
  | [], d :: m, _ => by
    obtain ⟨b, rest, hd⟩ := List.exists_cons_of_ne_nil (String.utf8EncodeChar_ne_nil (c := d))
    rw [List.flatMap_nil, List.flatMap_cons, hd]
    exact List.nil_lt_cons _ _
  | c :: l, d :: m, h => by
    rw [List.flatMap_cons, List.flatMap_cons]
    rcases List.cons_lt_cons_iff.mp h with hcd | ⟨rfl, hlm⟩
    · exact encode_lt hcd _ _
    · exact List.append_left_lt (flatMap_encode_lt hlm)

theorem bytes_lt {s t : String} (h : s < t) : bytes s < bytes t := by
  rw [bytes_eq_flatMap, bytes_eq_flatMap]
  exact flatMap_encode_lt (String.lt_iff_toList_lt.mp h)

theorem bytes_lt_iff {s t : String} : bytes s < bytes t ↔ s < t := by
  refine ⟨fun h => ?_, bytes_lt⟩
  rcases lt_trichotomy s t with hst | rfl | hts
  · exact hst
  · exact absurd h (List.lt_irrefl _)
  · exact absurd h (List.lt_asymm (bytes_lt hts))

end ValueSyntax.Text
