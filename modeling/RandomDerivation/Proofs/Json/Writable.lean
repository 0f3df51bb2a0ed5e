import Mathlib.Algebra.Group.Nat.Defs
import RandomDerivation.Json.Literal
import RandomDerivation.Proofs.Json.Read

/-!
# What can be written

A value can be written when none of its whole numbers has too many digits. The limit for writing
is that for reading, so everything that is read can be written again.
-/

namespace RandomDerivation

namespace Integer

/-- A number can be written when it is smaller than the first that has too many digits. -/
theorem isWritable_iff {n : Int} : isWritable n = true ↔ n.natAbs < 10 ^ maxDigits := by
  rw [isWritable, decide_eq_true_iff]
  exact Nat.length_toDigits_le_iff (by decide) (by decide)

theorem isWritable_of_between {low high n : Int} (hlow : isWritable low = true)
    (hhigh : isWritable high = true) (h : low ≤ n) (h' : n ≤ high) : isWritable n = true := by
  rw [isWritable_iff] at hlow hhigh ⊢
  generalize 10 ^ maxDigits = limit at hlow hhigh ⊢
  omega

end Integer

namespace Json

theorem isWritable_arr {items : List Json} :
    (arr items).isWritable = true ↔ ∀ v ∈ items, v.isWritable = true := by
  rw [isWritable]
  induction items with
  | nil => simp [areWritable]
  | cons v rest ih => rw [areWritable, Bool.and_eq_true, ih, List.forall_mem_cons]

theorem isWritable_obj {members : List (String × Json)} :
    (obj members).isWritable = true ↔ ∀ e ∈ members, e.2.isWritable = true := by
  rw [isWritable]
  induction members with
  | nil => simp [membersWritable]
  | cons e rest ih => rw [membersWritable, Bool.and_eq_true, ih, List.forall_mem_cons]

/-- Behind a number `n`, a row of digits makes a number below that of `n + 1` with zeros instead. -/
theorem foldl_digits_lt {ds : List Char} (h : ∀ c ∈ ds, isDigit c = true) (n : Nat) :
    ds.foldl (fun n c => 10 * n + (c.toNat - '0'.toNat)) n < (n + 1) * 10 ^ ds.length := by
  induction ds generalizing n with
  | nil => simp
  | cons c ds ih =>
    obtain ⟨hc, hds⟩ := List.forall_mem_cons.1 h
    have hdigit : c.toNat - '0'.toNat ≤ 9 := by
      simp only [isDigit, Bool.and_eq_true, decide_eq_true_eq] at hc
      have hnine : c.toNat ≤ '9'.toNat := hc.2
      have hvalues : '9'.toNat = '0'.toNat + 9 := rfl
      omega
    rw [List.foldl_cons, List.length_cons, Nat.pow_succ']
    calc ds.foldl _ (10 * n + (c.toNat - '0'.toNat))
        < (10 * n + (c.toNat - '0'.toNat) + 1) * 10 ^ ds.length := ih hds _
      _ ≤ (n + 1) * 10 * 10 ^ ds.length := Nat.mul_le_mul_right _ (by omega)
      _ = (n + 1) * (10 * 10 ^ ds.length) := Nat.mul_assoc _ _ _

/-- A row of digits makes a number of at most as many digits. -/
theorem digitsValue_lt {ds : List Char} (h : ∀ c ∈ ds, isDigit c = true) :
    digitsValue ds < 10 ^ ds.length := by
  have hlt := foldl_digits_lt h 0
  rwa [Nat.zero_add, Nat.one_mul] at hlt

theorem isDigit_of_wholeDigits? {s : List Char} {r : List Char × List Char}
    (h : wholeDigits? s = some r) : ∀ c ∈ r.1, isDigit c = true := by
  unfold wholeDigits? at h
  split at h
  · cases h
  · split at h
    · rename_i hzero
      cases h
      simp [hzero, isDigit]
    split at h
    · rename_i hdigit
      cases h
      intro c hc
      rcases List.mem_cons.1 hc with rfl | hc
      · exact hdigit
      · exact List.all_eq_true.1 List.all_takeWhile c hc
    · cases h

theorem isDigit_of_numeral? {s : List Char} {r : Numeral × List Char} (h : numeral? s = some r) :
    ∀ c ∈ r.1.whole, isDigit c = true := by
  unfold numeral? at h
  obtain ⟨_, hwhole, rfl⟩ := Option.map_eq_some_iff.1 h
  exact isDigit_of_wholeDigits? hwhole

theorem inherited_isWritable : Inherited fun v => v.isWritable = true where
  constant := by simp [constants, isWritable]
  numeral := by
    intro s n rest v hnumeral hv
    unfold Numeral.value at hv
    split at hv
    · split at hv
      · cases hv
      · rename_i hshort
        cases hv
        have hlt : digitsValue n.whole < 10 ^ Integer.maxDigits :=
          Nat.lt_of_lt_of_le (digitsValue_lt (isDigit_of_numeral? hnumeral))
            (Nat.pow_le_pow_right (by decide) (Nat.le_of_not_lt hshort))
        rw [isWritable, Integer.isWritable_iff]
        split
        · rwa [Int.natAbs_neg, Int.natAbs_natCast]
        · rwa [Int.natAbs_natCast]
    · cases hv
      rfl
  str _ := rfl
  arr := isWritable_arr.2
  obj := by
    intro ms h
    exact isWritable_obj.2 (Table.forall_mem_ofList (P := fun v : Json => v.isWritable = true) h)

/-- What is read can be written. -/
theorem isWritable_of_read {text : List Char} {v : Json} (h : read text = .ok v) :
    v.isWritable = true :=
  inherited_isWritable.of_read h

end Json

end RandomDerivation
