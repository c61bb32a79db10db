/-!
# Reading with a look ahead

Several text formats write one item in one or more elements, and the first element together with
a look at the following ones decides how many of them the item takes. `scan` reads a whole
sequence in this way.
-/

namespace DexGraph.Text

variable {α β : Type}

/-- Passes over `skip` elements and reads the items after them. The function `item` gets an
element and all that follows it, and returns the item that starts there and how many of the
following elements belong to it. -/
def scanFrom (item : α → List α → β × Nat) : (skip : Nat) → List α → List β
  | _, [] => []
  | skip + 1, _ :: rest => scanFrom item skip rest
  | 0, a :: rest => (item a rest).1 :: scanFrom item (item a rest).2 rest

/-- The items of a sequence. -/
def scan (item : α → List α → β × Nat) (elements : List α) : List β :=
  scanFrom item 0 elements

@[simp] theorem scan_nil (item : α → List α → β × Nat) : scan item [] = [] := rfl

theorem scanFrom_eq_scan_drop (item : α → List α → β × Nat) (skip : Nat) (elements : List α) :
    scanFrom item skip elements = scan item (elements.drop skip) := by
  induction skip generalizing elements with
  | zero => rfl
  | succ skip ih =>
    cases elements with
    | nil => rfl
    | cons a rest => exact ih rest

theorem scan_cons (item : α → List α → β × Nat) (a : α) (rest : List α) :
    scan item (a :: rest) = (item a rest).1 :: scan item (rest.drop (item a rest).2) := by
  rw [← scanFrom_eq_scan_drop]
  rfl

end DexGraph.Text
