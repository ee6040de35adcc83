import Mathlib

/-!
# Byte strings, C strings and error texts

A `CString` is a byte string without a NUL byte: the terminator is not part of it. Buffers
read as C strings end at their first NUL. Error texts go through one 256-byte buffer.
-/
namespace ByteText

abbrev Bytes := List UInt8

@[ext] structure CString where
  bytes : Bytes
  nulFree : 0 ∉ bytes
  deriving DecidableEq

def CString.ofBuffer (b : Bytes) : CString where
  bytes := b.takeWhile (· ≠ 0)
  nulFree h := by simpa using List.mem_takeWhile_imp h

theorem ofBuffer_of_nulFree {b : Bytes} (h : 0 ∉ b) : (CString.ofBuffer b).bytes = b := by
  change b.takeWhile (· ≠ 0) = b
  rw [List.takeWhile_eq_self_iff]
  intro c hc
  have : c ≠ 0 := fun heq => h (heq ▸ hc)
  simpa using this

theorem CString.ofBuffer_bytes (s : CString) : CString.ofBuffer s.bytes = s :=
  CString.ext (ofBuffer_of_nulFree s.nulFree)

def ascii (s : String) : Bytes := s.toList.map (fun c => UInt8.ofNat c.toNat)

def CString.lit (s : String) : CString := .ofBuffer (ascii s)

def CString.empty : CString := ⟨[], by simp⟩

def CString.append (s t : CString) : CString where
  bytes := s.bytes ++ t.bytes
  nulFree h := (List.mem_append.mp h).elim s.nulFree t.nulFree

instance : Append CString := ⟨CString.append⟩

@[simp] theorem CString.bytes_append (s t : CString) : (s ++ t).bytes = s.bytes ++ t.bytes := rfl
@[simp] theorem CString.bytes_empty : CString.empty.bytes = [] := rfl

def CString.take (n : ℕ) (s : CString) : CString where
  bytes := s.bytes.take n
  nulFree h := s.nulFree (List.mem_of_mem_take h)

def isSpace (b : UInt8) : Bool := b = 32 || (9 ≤ b && b ≤ 13)

def CString.trim (text : CString) : CString where
  bytes := (((text.bytes.dropWhile isSpace).reverse).dropWhile isSpace).reverse
  nulFree h := text.nulFree (List.dropWhile_subset _ (List.mem_reverse.mp
    (List.dropWhile_subset _ (List.mem_reverse.mp h))))

def digit (d : ℕ) : UInt8 := UInt8.ofNat (48 + d)

def decimalBytes (n : ℕ) : Bytes :=
  if n = 0 then [48] else (Nat.digits 10 n).reverse.map digit

theorem digit_toNat {d : ℕ} (hd : d < 10) : (digit d).toNat = 48 + d := by
  simp only [digit, UInt8.toNat_ofNat']
  omega

theorem mem_decimalBytes {n : ℕ} {b : UInt8} (hb : b ∈ decimalBytes n) :
    48 ≤ b.toNat ∧ b.toNat ≤ 57 := by
  unfold decimalBytes at hb
  split at hb
  · rw [List.mem_singleton] at hb
    subst b
    decide
  · obtain ⟨d, hd, rfl⟩ := List.mem_map.mp hb
    have hlt := Nat.digits_lt_base (by omega) (List.mem_reverse.mp hd)
    rw [digit_toNat hlt]
    omega

theorem decimalBytes_length {n : ℕ} (hn : n < 10 ^ 20) : (decimalBytes n).length ≤ 20 := by
  unfold decimalBytes
  split
  · decide
  · rw [List.length_map, List.length_reverse]
    exact (Nat.digits_length_le_iff (by decide) n).mpr hn

def decimal (n : ℕ) : CString where
  bytes := decimalBytes n
  nulFree h := by simpa using mem_decimalBytes h

inductive StatusCode where
  | ok
  | invalidArgs
  | fileError
  | lexError
  | parseError
  | schemaError
  | storageError
  | execError
  | indexError
  deriving DecidableEq, Repr

/-- The size of the `errbuf` that `main` and `db_api_execute_sql` hand down. -/
def errbufSize : ℕ := 256

/-- `set_error`: `vsnprintf` into the error buffer, cut to its size. -/
def setError (message : CString) : CString := message.take (errbufSize - 1)

structure EngineError where
  status : StatusCode
  message : CString
  deriving DecidableEq

end ByteText
