/-!
Byte addresses, in the heap or anywhere else, are natural numbers. Memory is read and written in
words of eight bytes; a card is the unit of remembered sets and of block tables.
-/
set_option autoImplicit false

namespace RegionHeap.Address

/-- Lower-case hexadecimal digits behind 0x, without leading zeros. -/
def text (a : Nat) : String := "0x" ++ String.ofList (Nat.toDigits 16 a)

def logBytesInWord : Nat := 3
def bytesInWord : Nat := 8
def logBytesInCard : Nat := 9
def bytesInCard : Nat := 512
def bytesInPage : Nat := 4096

theorem bytesInWord_eq : bytesInWord = 1 <<< logBytesInWord := rfl
theorem bytesInCard_eq : bytesInCard = 1 <<< logBytesInCard := rfl

/-- The index of the card that holds the address, counted from address zero. -/
def card (a : Nat) : Nat := a >>> logBytesInCard

theorem card_eq_div (a : Nat) : card a = a / bytesInCard := by
  simp [card, bytesInCard, logBytesInCard, Nat.shiftRight_eq_div_pow]

end RegionHeap.Address
