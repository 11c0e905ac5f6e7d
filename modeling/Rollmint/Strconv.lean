import Rollmint.Runtime

/-!
# Decimal `uint64` text: `strconv.FormatUint` and `strconv.ParseUint`

PendingBlocks persists the last submitted height as `strconv.FormatUint(h, 10)` and reads it
back with `strconv.ParseUint(string(raw), 10, 64)`. Both are modelled after the Go standard
library for base 10 and bit size 64, on the bytes that the metadata store holds. The main
result is the round trip `parseUint_formatUint`.
-/

namespace Rollmint.Strconv

/-- The ASCII byte of a decimal digit. -/
def digitByte (d : Nat) : UInt8 := UInt8.ofNat (48 + d)

/-- The digit loop of `formatBits`: the digits of `n` go in front of `acc`, least significant
first; `fuel` bounds their number. -/
def formatDigits : Nat → Nat → List UInt8 → List UInt8
  | 0, _, acc => acc
  | fuel + 1, n, acc =>
    if n < 10 then digitByte n :: acc
    else formatDigits fuel (n / 10) (digitByte (n % 10) :: acc)

/-- `[]byte(strconv.FormatUint(x, 10))`. A `uint64` has at most 20 decimal digits. -/
def formatUint (x : UInt64) : List UInt8 := formatDigits 20 x.toNat []

example : formatUint 1207 = [49, 50, 48, 55] := by decide

/-- A `*strconv.NumError` of `ParseUint` by its cause (`ErrSyntax`, `ErrRange`), with the text
that was parsed. -/
inductive NumError
  | syntaxError (num : List UInt8)
  | rangeError (num : List UInt8)
  deriving DecidableEq, Repr

def cutoff : Nat := maxUint64 / 10 + 1

/-- The digit loop of `ParseUint(s, 10, 64)` over the bytes left, with accumulator `n`. -/
def parseDigits (s : List UInt8) : Nat → List UInt8 → Except NumError Nat
  | n, [] => .ok n
  | n, c :: cs =>
    if 48 ≤ c.toNat ∧ c.toNat ≤ 57 then
      if cutoff ≤ n then .error (.rangeError s)
      else if maxUint64 < n * 10 + (c.toNat - 48) then .error (.rangeError s)
      else parseDigits s (n * 10 + (c.toNat - 48)) cs
    else .error (.syntaxError s)

/-- `strconv.ParseUint(string(raw), 10, 64)`. -/
def parseUint (s : List UInt8) : Except NumError UInt64 :=
  if s = [] then .error (.syntaxError s) else (parseDigits s 0 s).map UInt64.ofNat

example : parseUint [48, 55] = .ok 7 := rfl

/-! ## The round trip -/

theorem digitByte_toNat {d : Nat} (h : d < 10) : (digitByte d).toNat = 48 + d := by
  simp only [digitByte, UInt8.toNat, UInt8.ofNat, BitVec.toNat_ofNat]
  omega

theorem parseDigits_digitByte (s rest : List UInt8) {n d : Nat} (hd : d < 10)
    (hn : n * 10 + d ≤ maxUint64) :
    parseDigits s n (digitByte d :: rest) = parseDigits s (n * 10 + d) rest := by
  have hcut : ¬ cutoff ≤ n := by simp only [cutoff, maxUint64] at *; omega
  simp only [parseDigits, digitByte_toNat hd, hcut, if_false]
  rw [if_pos (by omega), if_neg (by omega), Nat.add_sub_cancel_left]

theorem parseDigits_formatDigits (s : List UInt8) :
    ∀ (fuel n : Nat) (rest : List UInt8), n < 10 ^ fuel → n ≤ maxUint64 →
      parseDigits s 0 (formatDigits fuel n rest) = parseDigits s n rest
  | 0, n, rest, hn, _ => by
    have : n = 0 := by simpa using hn
    subst this; rfl
  | fuel + 1, n, rest, hn, hmax => by
    by_cases h10 : n < 10
    · simp only [formatDigits, h10, if_true]
      simpa using parseDigits_digitByte s rest h10 (n := 0) (by omega)
    · have hdiv : n / 10 < 10 ^ fuel := by rw [Nat.pow_succ] at hn; omega
      simp only [formatDigits, h10, if_false]
      rw [parseDigits_formatDigits s fuel (n / 10) _ hdiv (by omega),
        parseDigits_digitByte s rest (Nat.mod_lt n (by omega)) (by omega),
        Nat.div_add_mod' n 10]

theorem formatDigits_ne_nil : ∀ (fuel n : Nat) (acc : List UInt8), 0 < fuel ∨ acc ≠ [] →
    formatDigits fuel n acc ≠ []
  | 0, _, _, h => by simpa using h
  | fuel + 1, n, acc, _ => by
    simp only [formatDigits]
    split
    · exact List.cons_ne_nil _ _
    · exact formatDigits_ne_nil fuel _ _ (.inr (List.cons_ne_nil _ _))

/-- Reading back what `FormatUint` wrote gives the same `uint64`. -/
theorem parseUint_formatUint (x : UInt64) : parseUint (formatUint x) = .ok x := by
  unfold formatUint
  have hx := uint64_toNat_le x
  have hfuel : x.toNat < 10 ^ 20 := by simp only [maxUint64] at hx; omega
  rw [parseUint, if_neg (formatDigits_ne_nil 20 x.toNat [] (.inl (by decide))),
    parseDigits_formatDigits _ 20 _ [] hfuel hx]
  exact congrArg Except.ok (uint64_ofNat_toNat x)

end Rollmint.Strconv
