import RandomDerivation.Text.Utf8

/-!
# Characters and their bytes

A character is encoded by one to four bytes, of which the first says how many there are. No form
is longer than it has to be, and no character has the number of a surrogate. So the strict reader
takes every encoded character, and a text is read as it was written.
-/

namespace RandomDerivation.Utf8

theorem within_iff {low high b : UInt8} :
    (low ≤ b && b ≤ high) = true ↔ low.toNat ≤ b.toNat ∧ b.toNat ≤ high.toNat := by
  simp [UInt8.le_iff_toNat_le]

section
variable (place : Nat) {a b c d : UInt8} (rest : Bytes)

theorem decodeFrom_one (ha : a.toNat < 0x80) :
    decodeFrom place (a :: rest) =
      (do return Char.ofNat a.toNat :: (← decodeFrom (place + 1) rest)) := by
  have hone : a < 0x80 := UInt8.lt_iff_toNat_lt.2 ha
  rw [decodeFrom.eq_def]
  simp only [hone, if_true]

theorem decodeFrom_two (hlow : 0xC2 ≤ a.toNat) (hhigh : a.toNat < 0xE0)
    (hb : isContinuation b = true) :
    decodeFrom place (a :: b :: rest) =
      (do return Char.ofNat (a.toNat % 32 * 64 + payload b) ::
        (← decodeFrom (place + 2) rest)) := by
  have hone : ¬ a < 0x80 := by simp [UInt8.lt_iff_toNat_lt]; omega
  have hstart : ¬ (a < 0xC2 ∨ 0xF4 < a) := by simp [UInt8.lt_iff_toNat_lt]; omega
  have htwo : a < 0xE0 := UInt8.lt_iff_toNat_lt.2 hhigh
  rw [decodeFrom.eq_def]
  simp only [hone, hstart, if_false, htwo, hb, if_true]

theorem decodeFrom_three (hlow : 0xE0 ≤ a.toNat) (hhigh : a.toNat < 0xF0)
    (hb : isSecondOfThree a b = true) (hc : isContinuation c = true) :
    decodeFrom place (a :: b :: c :: rest) =
      (do return Char.ofNat (a.toNat % 16 * 4096 + payload b * 64 + payload c) ::
        (← decodeFrom (place + 3) rest)) := by
  have hone : ¬ a < 0x80 := by simp [UInt8.lt_iff_toNat_lt]; omega
  have hstart : ¬ (a < 0xC2 ∨ 0xF4 < a) := by simp [UInt8.lt_iff_toNat_lt]; omega
  have htwo : ¬ a < 0xE0 := by simp [UInt8.lt_iff_toNat_lt]; omega
  have hthree : a < 0xF0 := UInt8.lt_iff_toNat_lt.2 hhigh
  rw [decodeFrom.eq_def]
  simp only [hone, hstart, htwo, if_false, hthree, hb, hc, if_true]

theorem decodeFrom_four (hlow : 0xF0 ≤ a.toNat) (hhigh : a.toNat ≤ 0xF4)
    (hb : isSecondOfFour a b = true) (hc : isContinuation c = true)
    (hd : isContinuation d = true) :
    decodeFrom place (a :: b :: c :: d :: rest) =
      (do return Char.ofNat (a.toNat % 8 * 262144 + payload b * 4096 + payload c * 64 +
        payload d) :: (← decodeFrom (place + 4) rest)) := by
  have hone : ¬ a < 0x80 := by simp [UInt8.lt_iff_toNat_lt]; omega
  have hstart : ¬ (a < 0xC2 ∨ 0xF4 < a) := by simp [UInt8.lt_iff_toNat_lt]; omega
  have htwo : ¬ a < 0xE0 := by simp [UInt8.lt_iff_toNat_lt]; omega
  have hthree : ¬ a < 0xF0 := by simp [UInt8.lt_iff_toNat_lt]; omega
  rw [decodeFrom.eq_def]
  simp only [hone, hstart, htwo, hthree, if_false, hb, hc, hd, if_true]

end

theorem toNat_ofNat {n : Nat} (h : n < 256) : (UInt8.ofNat n).toNat = n :=
  UInt8.toNat_ofNat_of_lt' h

/-- The last six bits of a number make a byte that continues a character. -/
theorem isContinuation_ofNat (n : Nat) : isContinuation (UInt8.ofNat (n % 64 + 128)) = true := by
  rw [isContinuation, within_iff, toNat_ofNat (by omega)]
  simp
  omega

theorem payload_ofNat (n : Nat) : payload (UInt8.ofNat (n % 64 + 128)) = n % 64 := by
  rw [payload, toNat_ofNat (by omega)]
  omega

/-- A number that needs three bytes, and is none of a surrogate, has a second byte that may follow
its first. -/
theorem isSecondOfThree_ofNat {n : Nat} (hlow : 0x800 ≤ n) (hhigh : n < 0x10000)
    (hcharacter : n < 0xD800 ∨ 0xDFFF < n) :
    isSecondOfThree (UInt8.ofNat (n / 4096 % 16 + 224)) (UInt8.ofNat (n / 64 % 64 + 128)) =
      true := by
  have hfirst := toNat_ofNat (n := n / 4096 % 16 + 224) (by omega)
  have hsecond := toNat_ofNat (n := n / 64 % 64 + 128) (by omega)
  rw [isSecondOfThree]
  split
  · rename_i heq
    rw [← UInt8.toNat_inj, hfirst] at heq
    rw [within_iff, hsecond]
    simp at heq ⊢
    omega
  split
  · rename_i heq
    rw [← UInt8.toNat_inj, hfirst] at heq
    rw [within_iff, hsecond]
    simp at heq ⊢
    omega
  · exact isContinuation_ofNat _

/-- The same for four bytes: the number needs them, and is not above the last character. -/
theorem isSecondOfFour_ofNat {n : Nat} (hlow : 0x10000 ≤ n) (hhigh : n < 0x110000) :
    isSecondOfFour (UInt8.ofNat (n / 262144 % 8 + 240)) (UInt8.ofNat (n / 4096 % 64 + 128)) =
      true := by
  have hfirst := toNat_ofNat (n := n / 262144 % 8 + 240) (by omega)
  have hsecond := toNat_ofNat (n := n / 4096 % 64 + 128) (by omega)
  rw [isSecondOfFour]
  split
  · rename_i heq
    rw [← UInt8.toNat_inj, hfirst] at heq
    rw [within_iff, hsecond]
    simp at heq ⊢
    omega
  split
  · rename_i heq
    rw [← UInt8.toNat_inj, hfirst] at heq
    rw [within_iff, hsecond]
    simp at heq ⊢
    omega
  · exact isContinuation_ofNat _

/-- The bytes of one character are read as this character, whatever follows them. -/
theorem decodeFrom_utf8EncodeChar (place : Nat) (c : Char) (rest : Bytes) :
    ∃ next, decodeFrom place (String.utf8EncodeChar c ++ rest) =
      (do return c :: (← decodeFrom next rest)) := by
  have hnumber : Char.ofNat c.toNat = c := Char.ofNat_toNat c
  have hvalid : c.toNat < 0xD800 ∨ 0xDFFF < c.toNat ∧ c.toNat < 0x110000 := c.valid
  have hval : c.val.toNat = c.toNat := rfl
  simp only [String.utf8EncodeChar, hval]
  generalize c.toNat = n at hnumber hvalid
  -- One case for each number of bytes; in each, the payloads of the bytes make up the number.
  split
  · have hfirst := toNat_ofNat (n := n) (by omega)
    refine ⟨place + 1, ?_⟩
    rw [List.singleton_append, decodeFrom_one _ _ (by omega), hfirst, hnumber]
  split
  · have hfirst := toNat_ofNat (n := n / 64 % 32 + 192) (by omega)
    have hsum : (n / 64 % 32 + 192) % 32 * 64 + n % 64 = n := by omega
    refine ⟨place + 2, ?_⟩
    rw [List.cons_append, List.singleton_append,
      decodeFrom_two _ _ (by omega) (by omega) (isContinuation_ofNat n), hfirst, payload_ofNat,
      hsum, hnumber]
  split
  · have hfirst := toNat_ofNat (n := n / 4096 % 16 + 224) (by omega)
    have hsum : (n / 4096 % 16 + 224) % 16 * 4096 + n / 64 % 64 * 64 + n % 64 = n := by omega
    have hsecond := isSecondOfThree_ofNat (n := n) (by omega) (by omega) (by omega)
    refine ⟨place + 3, ?_⟩
    rw [List.cons_append, List.cons_append, List.singleton_append,
      decodeFrom_three _ _ (by omega) (by omega) hsecond (isContinuation_ofNat n), hfirst,
      payload_ofNat, payload_ofNat, hsum, hnumber]
  · have hfirst := toNat_ofNat (n := n / 262144 % 8 + 240) (by omega)
    have hsum : (n / 262144 % 8 + 240) % 8 * 262144 + n / 4096 % 64 * 4096 +
        n / 64 % 64 * 64 + n % 64 = n := by omega
    have hsecond := isSecondOfFour_ofNat (n := n) (by omega) (by omega)
    refine ⟨place + 4, ?_⟩
    rw [List.cons_append, List.cons_append, List.cons_append, List.singleton_append,
      decodeFrom_four _ _ (by omega) (by omega) hsecond (isContinuation_ofNat _)
        (isContinuation_ofNat n), hfirst, payload_ofNat, payload_ofNat, payload_ofNat, hsum,
      hnumber]

/-- The bytes of a text are read as this text. -/
theorem decode_encode (text : List Char) : decode (encode text) = .ok text := by
  have hfrom : ∀ place, decodeFrom place (encode text) = .ok text := by
    induction text with
    | nil => exact fun place => rfl
    | cons c text ih =>
      intro place
      obtain ⟨next, hnext⟩ := decodeFrom_utf8EncodeChar place c (encode text)
      rw [encode, List.flatMap_cons, ← encode, hnext, ih]
      rfl
  exact hfrom 0

end RandomDerivation.Utf8
