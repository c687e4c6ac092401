/-! Ordered forests. A nonempty forest is a first root with its children, and the roots after
it. -/
namespace MatlabOutline

inductive Forest (α : Type) where
  | nil
  | node (root : α) (children : Forest α) (others : Forest α)
  deriving DecidableEq, Inhabited, Repr

namespace Forest

variable {α β γ ε : Type}

/-- The values in pre-order. -/
def flatten : Forest α → List α
  | nil => []
  | node a cs fs => a :: (flatten cs ++ flatten fs)

/-- The values in pre-order, each with its depth. -/
def withDepths (depth : Nat) : Forest α → List (Nat × α)
  | nil => []
  | node a cs fs => (depth, a) :: (withDepths (depth + 1) cs ++ withDepths depth fs)

def size : Forest α → Nat
  | nil => 0
  | node _ cs fs => size cs + size fs + 1

def map (f : α → β) : Forest α → Forest β
  | nil => nil
  | node a cs fs => node (f a) (map f cs) (map f fs)

/-- Map with a function that may fail; the first failure in pre-order counts. -/
def mapExcept (f : α → Except ε β) : Forest α → Except ε (Forest β)
  | nil => .ok nil
  | node a cs fs => do
    let b ← f a
    let bs ← mapExcept f cs
    let gs ← mapExcept f fs
    return node b bs gs

@[simp] theorem length_flatten (f : Forest α) : f.flatten.length = f.size := by
  induction f with
  | nil => rfl
  | node a cs fs hc hf => simp [flatten, size, hc, hf]

@[simp] theorem map_id (f : Forest α) : f.map id = f := by
  induction f with
  | nil => rfl
  | node a cs fs hc hf => simp [map, hc, hf]

theorem map_map (g : β → γ) (f : α → β) (as : Forest α) : (as.map f).map g = as.map (g ∘ f) := by
  induction as with
  | nil => rfl
  | node a cs fs hc hf => simp only [map, hc, hf, Function.comp]

@[simp] theorem size_map (g : α → β) (f : Forest α) : (f.map g).size = f.size := by
  induction f with
  | nil => rfl
  | node a cs fs hc hf => simp [map, size, hc, hf]

@[simp] theorem flatten_map (g : α → β) (f : Forest α) : (f.map g).flatten = f.flatten.map g := by
  induction f with
  | nil => rfl
  | node a cs fs hc hf => simp [map, flatten, hc, hf]

theorem withDepths_map (g : α → β) (depth : Nat) (f : Forest α) :
    (f.map g).withDepths depth = (f.withDepths depth).map fun e => (e.1, g e.2) := by
  induction f generalizing depth with
  | nil => rfl
  | node a cs fs hc hf => simp [map, withDepths, hc, hf]

theorem map_snd_withDepths (depth : Nat) (f : Forest α) :
    (f.withDepths depth).map Prod.snd = f.flatten := by
  induction f generalizing depth with
  | nil => rfl
  | node a cs fs hc hf => simp [withDepths, flatten, hc, hf]

end Forest
end MatlabOutline
