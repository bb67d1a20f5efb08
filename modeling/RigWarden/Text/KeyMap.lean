/-!
# Values under text keys, in key order

A list of pairs whose keys increase by code point. Storing under a present key replaces the value,
so of several entries with one key the last one counts.
-/

namespace RigWarden.Text

abbrev KeyMap (α : Type) := List (String × α)

namespace KeyMap

variable {α : Type}

def insert (m : KeyMap α) (key : String) (a : α) : KeyMap α :=
  match m with
  | [] => [(key, a)]
  | (k, b) :: rest =>
    if key < k then (key, a) :: (k, b) :: rest
    else if key = k then (key, a) :: rest
    else (k, b) :: insert rest key a

def get? (m : KeyMap α) (key : String) : Option α := (m.find? (·.1 == key)).map Prod.snd

def values (m : KeyMap α) : List α := m.map Prod.snd

def ofList (entries : List (String × α)) : KeyMap α :=
  entries.foldl (fun m e => m.insert e.1 e.2) []

@[simp] theorem get?_nil (key : String) : get? ([] : KeyMap α) key = none := rfl

theorem get?_cons (k key : String) (a : α) (m : KeyMap α) :
    get? ((k, a) :: m) key = if k = key then some a else get? m key := by
  by_cases h : k = key <;> simp [get?, h]

@[simp] theorem get?_insert_self (m : KeyMap α) (key : String) (a : α) :
    get? (m.insert key a) key = some a := by
  induction m with
  | nil => simp [insert, get?_cons]
  | cons e rest ih =>
    obtain ⟨k, b⟩ := e
    by_cases lt : key < k
    · simp [insert, lt, get?_cons]
    · by_cases eq : key = k
      · simp [insert, eq, get?_cons]
      · simp [insert, lt, eq, get?_cons, ih, Ne.symm eq]

theorem get?_insert_of_ne (m : KeyMap α) {key other : String} (h : key ≠ other) (a : α) :
    get? (m.insert key a) other = get? m other := by
  induction m with
  | nil => simp [insert, get?_cons, h]
  | cons e rest ih =>
    obtain ⟨k, b⟩ := e
    by_cases lt : key < k
    · simp [insert, lt, get?_cons, h]
    · by_cases eq : key = k
      · subst eq; simp [insert, get?_cons, h]
      · simp [insert, lt, eq, get?_cons, ih]

end KeyMap
end RigWarden.Text
