namespace FirstFit.Text

def numbersFrom (sofar : Option Nat) : List Char → List Nat
  | [] => sofar.toList
  | c :: rest =>
      if c.isDigit then
        numbersFrom (some (sofar.getD 0 * 10 + (c.toNat - '0'.toNat))) rest
      else
        sofar.toList ++ numbersFrom none rest

def numbers (text : String) : List Nat := numbersFrom none text.toList

def Breaks (rest : List Char) : Prop := ∀ c ∈ rest.head?, c.isDigit = false

@[simp] theorem breaks_nil : Breaks [] := by simp [Breaks]

@[simp] theorem breaks_cons {c : Char} {rest : List Char} :
    Breaks (c :: rest) ↔ c.isDigit = false := by
  simp [Breaks]

@[simp] theorem numbersFrom_nil : numbersFrom none [] = [] := rfl

@[simp] theorem numbersFrom_cons {c : Char} (plain : c.isDigit = false) (rest : List Char) :
    numbersFrom none (c :: rest) = numbersFrom none rest := by
  simp [numbersFrom, plain]

theorem numbersFrom_some {rest : List Char} (h : Breaks rest) (n : Nat) :
    numbersFrom (some n) rest = n :: numbersFrom none rest := by
  cases rest with
  | nil => rfl
  | cons c rest =>
    have plain : c.isDigit = false := h c rfl
    simp [numbersFrom, plain]

theorem numbersFrom_digits {digits : List Char} (all : ∀ c ∈ digits, c.isDigit = true) (n : Nat)
    (rest : List Char) :
    numbersFrom (some n) (digits ++ rest) =
      numbersFrom (some (Nat.ofDigitChars 10 digits n)) rest := by
  induction digits generalizing n with
  | nil => rfl
  | cons d others ih =>
    have digit : d.isDigit = true := all d List.mem_cons_self
    rw [List.cons_append, numbersFrom, if_pos digit, Nat.ofDigitChars_cons, Option.getD_some,
      Nat.mul_comm]
    exact ih (fun c hc => all c (List.mem_cons_of_mem _ hc)) _

theorem numbersFrom_zero {digits : List Char} (some_digit : digits ≠ [])
    (all : ∀ c ∈ digits, c.isDigit = true) (rest : List Char) :
    numbersFrom none (digits ++ rest) = numbersFrom (some 0) (digits ++ rest) := by
  cases digits with
  | nil => exact absurd rfl some_digit
  | cons d others =>
    simp only [List.cons_append, numbersFrom, all d List.mem_cons_self]
    rfl

@[simp] theorem numbersFrom_toDigits {rest : List Char} (h : Breaks rest) (n : Nat) :
    numbersFrom none (Nat.toDigits 10 n ++ rest) = n :: numbersFrom none rest := by
  have all : ∀ c ∈ Nat.toDigits 10 n, c.isDigit = true := fun c hc =>
    Nat.isDigit_of_mem_toDigits (by decide) (by decide) hc
  rw [numbersFrom_zero Nat.toDigits_ne_nil all, numbersFrom_digits all,
    Nat.ofDigitChars_ten_toDigits, numbersFrom_some h]

@[simp] theorem numbersFrom_toDigits_nil (n : Nat) : numbersFrom none (Nat.toDigits 10 n) = [n] := by
  simpa using numbersFrom_toDigits breaks_nil n

end FirstFit.Text
