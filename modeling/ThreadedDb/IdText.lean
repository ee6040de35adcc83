import ThreadedDb.RuntimeModel

/-!
# Ids as text

`parse_canonical_positive_uint64` accepts exactly the decimal texts of the positive 64-bit
numbers, so an id and its text determine each other.
-/
namespace IdText

open ByteText
open RuntimeModel

def valueOf (ds : List ℕ) : ℕ := ds.foldl (fun value d => value * 10 + d) 0

theorem foldl_digits (ds : List ℕ) (v : ℕ) :
    ds.foldl (fun value d => value * 10 + d) v = v * 10 ^ ds.length + valueOf ds := by
  induction ds generalizing v with
  | nil => simp [valueOf]
  | cons d ds ih =>
    rw [List.foldl_cons, ih]
    have hz := ih (0 * 10 + d)
    simp only [valueOf, List.foldl_cons, List.length_cons] at hz ⊢
    rw [hz]
    ring

theorem valueOf_cons (d : ℕ) (ds : List ℕ) :
    valueOf (d :: ds) = d * 10 ^ ds.length + valueOf ds := by
  have := foldl_digits ds d
  simpa [valueOf] using this

theorem valueOf_eq_ofDigits (ds : List ℕ) : valueOf ds = Nat.ofDigits 10 ds.reverse := by
  induction ds with
  | nil => rfl
  | cons d ds ih =>
    rw [valueOf_cons, List.reverse_cons, Nat.ofDigits_append, ← ih, Nat.ofDigits_singleton,
      List.length_reverse]
    ring

theorem parseDigits_fits {ds : List ℕ} (hds : ∀ d ∈ ds, d < 10) (v : ℕ)
    (hfits : v * 10 ^ ds.length + valueOf ds ≤ uint64Max) :
    parseDigits (ds.map digit) v = some (v * 10 ^ ds.length + valueOf ds) := by
  induction ds generalizing v with
  | nil => simp [parseDigits, valueOf]
  | cons d ds ih =>
    have hd := hds d List.mem_cons_self
    have hval : v * 10 ^ (d :: ds).length + valueOf (d :: ds) =
        (v * 10 + d) * 10 ^ ds.length + valueOf ds := by
      rw [valueOf_cons, List.length_cons]
      ring
    rw [hval] at hfits ⊢
    have hstep : v * 10 + d ≤ uint64Max := by
      have hpos : 1 ≤ 10 ^ ds.length := Nat.one_le_pow _ _ (by decide)
      nlinarith
    have hdigit : (digit d).toNat = 48 + d := digit_toNat hd
    have hrange : ¬ (digit d < 48 ∨ 57 < digit d) := by
      rw [UInt8.lt_iff_toNat_lt, UInt8.lt_iff_toNat_lt, hdigit]
      simp
      omega
    rw [List.map_cons, parseDigits, if_neg hrange]
    simp only [hdigit, Nat.add_sub_cancel_left]
    rw [if_neg (by omega)]
    exact ih (fun d hd => hds d (List.mem_cons_of_mem _ hd)) _ hfits

theorem digits_of_parseDigits {bs : Bytes} {v value : ℕ} (h : parseDigits bs v = some value)
    (hv : v ≤ uint64Max) :
    ∃ ds : List ℕ, (∀ d ∈ ds, d < 10) ∧ bs = ds.map digit ∧
      value = v * 10 ^ ds.length + valueOf ds ∧ value ≤ uint64Max := by
  induction bs generalizing v with
  | nil =>
    cases h
    exact ⟨[], by simp, rfl, by simp [valueOf], hv⟩
  | cons b bs ih =>
    rw [parseDigits] at h
    split at h
    · cases h
    rename_i hrange
    rw [not_or, UInt8.lt_iff_toNat_lt, UInt8.lt_iff_toNat_lt] at hrange
    have hlo : 48 ≤ b.toNat := not_lt.mp hrange.1
    have hhi : b.toNat ≤ 57 := not_lt.mp hrange.2
    dsimp only at h
    split at h
    · cases h
    rename_i hroom
    have hnext : v * 10 + (b.toNat - 48) ≤ uint64Max := by
      have : uint64Max = 2 ^ 64 - 1 := rfl
      omega
    obtain ⟨ds, hds, rfl, hvalue, hle⟩ := ih h hnext
    refine ⟨(b.toNat - 48) :: ds, ?_, ?_, ?_, hle⟩
    · intro d hd
      rcases List.mem_cons.mp hd with rfl | hd
      · omega
      · exact hds d hd
    · rw [List.map_cons]
      congr 1
      apply UInt8.toNat_inj.mp
      rw [digit_toNat (by omega)]
      omega
    · rw [hvalue, valueOf_cons, List.length_cons]
      ring

theorem decimalBytes_digits {n : ℕ} (hn : n ≠ 0) :
    ∃ ds : List ℕ, (∀ d ∈ ds, d < 10) ∧ decimalBytes n = ds.map digit ∧ valueOf ds = n ∧
      ∃ d rest, ds = d :: rest ∧ d ≠ 0 := by
  refine ⟨(Nat.digits 10 n).reverse, ?_, ?_, ?_, ?_⟩
  · intro d hd
    exact Nat.digits_lt_base (by decide) (List.mem_reverse.mp hd)
  · rw [decimalBytes, if_neg hn]
  · rw [valueOf_eq_ofDigits, List.reverse_reverse, Nat.ofDigits_digits]
  · have hne : Nat.digits 10 n ≠ [] := Nat.digits_ne_nil_iff_ne_zero.mpr hn
    have hlast := Nat.getLast_digit_ne_zero 10 hn
    refine ⟨(Nat.digits 10 n).getLast hne, (Nat.digits 10 n).dropLast.reverse, ?_, hlast⟩
    conv_lhs => rw [← List.dropLast_concat_getLast hne, List.reverse_append]
    rfl

theorem foldl_digit_bytes {ds : List ℕ} (h : ∀ d ∈ ds, d < 10) (v : ℕ) :
    (ds.map digit).foldl (fun n c => n * 10 + (c.toNat - 48)) v =
      ds.foldl (fun n d => n * 10 + d) v := by
  induction ds generalizing v with
  | nil => rfl
  | cons d ds ih =>
    obtain ⟨hd, hds⟩ := List.forall_mem_cons.mp h
    rw [List.map_cons, List.foldl_cons, List.foldl_cons, digit_toNat hd, ih hds,
      Nat.add_sub_cancel_left]

theorem decimalBytes_value (n : ℕ) :
    (decimalBytes n).foldl (fun n c => n * 10 + (c.toNat - 48)) 0 = n := by
  by_cases hn : n = 0
  · subst hn
    rfl
  · obtain ⟨ds, hds, hbytes, hvalue, -⟩ := decimalBytes_digits hn
    rw [hbytes, foldl_digit_bytes hds]
    exact hvalue

theorem digit_zero_iff {d : ℕ} (hd : d < 10) : digit d = 48 ↔ d = 0 := by
  constructor
  · intro h
    have := congrArg UInt8.toNat h
    rw [digit_toNat hd] at this
    simpa using this
  · rintro rfl
    rfl

theorem decimalBytes_of_digits {d : ℕ} {ds : List ℕ} (hds : ∀ e ∈ d :: ds, e < 10) (hd : d ≠ 0) :
    decimalBytes (valueOf (d :: ds)) = (d :: ds).map digit := by
  have hvalue : valueOf (d :: ds) ≠ 0 := by
    rw [valueOf_cons]
    have hpos : 0 < d * 10 ^ ds.length := Nat.mul_pos (Nat.pos_of_ne_zero hd) (by positivity)
    omega
  have hdigits : Nat.digits 10 (valueOf (d :: ds)) = (d :: ds).reverse := by
    rw [valueOf_eq_ofDigits]
    apply Nat.digits_ofDigits 10 (by decide)
    · exact fun e he => hds e (List.mem_reverse.mp he)
    · intro hne
      rw [List.getLast_reverse, List.head_cons]
      exact hd
  rw [decimalBytes, if_neg hvalue, hdigits, List.reverse_reverse]

theorem parseCanonical_sound {text : CString} {k : UInt64}
    (h : parseCanonicalPositiveUInt64 text = some k) : k ≠ 0 ∧ text = decimal k.toNat := by
  unfold parseCanonicalPositiveUInt64 at h
  split at h
  · cases h
  rename_i b rest hbytes
  split at h
  · cases h
  rename_i hfirst
  split at h
  · cases h
  rename_i value hparse
  split at h
  · cases h
  rename_i hvalue
  cases h
  obtain ⟨ds, hds, hmap, hval, hle⟩ := digits_of_parseDigits hparse (Nat.zero_le _)
  rw [Nat.zero_mul, Nat.zero_add] at hval
  have hmax : uint64Max = 2 ^ 64 - 1 := rfl
  have hk : (UInt64.ofNat value).toNat = value := by
    rw [UInt64.toNat_ofNat']
    omega
  refine ⟨?_, CString.ext ?_⟩
  · intro hzero
    rw [hzero] at hk
    exact hvalue (by simpa using hk.symm)
  · cases ds with
    | nil => cases hmap
    | cons d ds =>
      have hd : d ≠ 0 := by
        intro hzero
        apply hfirst
        rw [(List.cons.inj hmap).1, (digit_zero_iff (hds d List.mem_cons_self)).mpr hzero]
      rw [hbytes, hmap, hk, hval]
      exact (decimalBytes_of_digits hds hd).symm

theorem parseCanonical_complete {k : UInt64} (hk : k ≠ 0) :
    parseCanonicalPositiveUInt64 (decimal k.toNat) = some k := by
  have hne : k.toNat ≠ 0 := by
    intro h
    exact hk (UInt64.toNat_inj.mp (by simpa using h))
  obtain ⟨ds, hds, hbytes, hval, d, rest, rfl, hd⟩ := decimalBytes_digits hne
  have hlt : k.toNat < 2 ^ 64 := k.toNat_lt
  have hmax : uint64Max = 2 ^ 64 - 1 := rfl
  have hparse := parseDigits_fits hds 0 (by rw [hval]; omega)
  rw [hval, Nat.zero_mul, Nat.zero_add] at hparse
  have hfirst : digit d ≠ 48 := fun h => hd ((digit_zero_iff (hds d List.mem_cons_self)).mp h)
  have htext : (decimal k.toNat).bytes = digit d :: rest.map digit := hbytes
  unfold parseCanonicalPositiveUInt64
  rw [htext]
  rw [List.map_cons] at hparse
  simp only [hfirst, if_false, hparse, hne]
  rw [UInt64.ofNat_toNat]

/-- A text is accepted with the value `k` exactly when it is the decimal text of `k` and `k` is
positive. -/
theorem parseCanonical_iff (text : CString) (k : UInt64) :
    parseCanonicalPositiveUInt64 text = some k ↔ k ≠ 0 ∧ text = decimal k.toNat := by
  constructor
  · exact parseCanonical_sound
  · rintro ⟨hk, rfl⟩
    exact parseCanonical_complete hk

end IdText
