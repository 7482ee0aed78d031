/-!
# Keyed lists

A finite map that remembers the order in which its keys first came in. Metadata, attributes,
layers, positions and the boxes of a finished drawing are all kept this way, because the order is
part of every answer. Writing a key that is already present changes its value and leaves its place.

The keys are pairwise distinct by construction, so a keyed list is determined by its entries.
-/

namespace Schematic

universe u v

/-- Entries in the order in which their keys first came in; no key occurs twice. -/
structure KeyedList (κ : Type u) (β : Type v) where
  entries : List (κ × β)
  distinct : (entries.map Prod.fst).Nodup
deriving Repr, DecidableEq

namespace KeyedList

variable {κ : Type u} {β : Type v}

def empty : KeyedList κ β := ⟨[], List.nodup_nil⟩

instance : Inhabited (KeyedList κ β) := ⟨empty⟩

instance : EmptyCollection (KeyedList κ β) := ⟨empty⟩

def keys (m : KeyedList κ β) : List κ := m.entries.map Prod.fst

/-- The values, in the order of their keys. -/
def values (m : KeyedList κ β) : List β := m.entries.map Prod.snd

def isEmpty (m : KeyedList κ β) : Bool := m.entries.isEmpty

/-- The entries with every value replaced by `f key value`. -/
def mapValues {γ : Type v} (f : κ → β → γ) (m : KeyedList κ β) : KeyedList κ γ where
  entries := m.entries.map fun e => (e.1, f e.1 e.2)
  distinct := by
    have h : (m.entries.map fun e => (e.1, f e.1 e.2)).map Prod.fst = m.entries.map Prod.fst := by
      simp [Function.comp_def]
    rw [h]
    exact m.distinct

variable [DecidableEq κ]

def get? (m : KeyedList κ β) (key : κ) : Option β := m.entries.lookup key

def contains (m : KeyedList κ β) (key : κ) : Bool := m.keys.contains key

/-- The entries after writing `value` under `key`. -/
def putEntries (key : κ) (value : β) : List (κ × β) → List (κ × β)
  | [] => [(key, value)]
  | e :: es => if e.1 = key then (key, value) :: es else e :: putEntries key value es

theorem mem_keys_putEntries {key k : κ} {value : β} {es : List (κ × β)} :
    k ∈ (putEntries key value es).map Prod.fst ↔ k = key ∨ k ∈ es.map Prod.fst := by
  induction es with
  | nil => simp [putEntries]
  | cons e es ih =>
    by_cases h : e.1 = key
    · simp [putEntries, h]
    · simp only [putEntries, h, if_false, List.map_cons, List.mem_cons, ih]
      constructor
      · rintro (rfl | rfl | h) <;> simp_all
      · rintro (rfl | rfl | h) <;> simp_all

theorem nodup_keys_putEntries {key : κ} {value : β} {es : List (κ × β)}
    (h : (es.map Prod.fst).Nodup) : ((putEntries key value es).map Prod.fst).Nodup := by
  induction es with
  | nil => simp [putEntries]
  | cons e es ih =>
    rw [List.map_cons, List.nodup_cons] at h
    by_cases he : e.1 = key
    · simp only [putEntries, he, if_true, List.map_cons, List.nodup_cons]
      exact ⟨he ▸ h.1, h.2⟩
    · simp only [putEntries, he, if_false, List.map_cons, List.nodup_cons]
      refine ⟨fun hm => ?_, ih h.2⟩
      rcases mem_keys_putEntries.mp hm with hk | hk
      · exact he hk
      · exact h.1 hk

/-- Writes `value` under `key`: in place when the key is present, at the end otherwise. -/
def put (m : KeyedList κ β) (key : κ) (value : β) : KeyedList κ β :=
  ⟨putEntries key value m.entries, nodup_keys_putEntries m.distinct⟩

/-- Changes the value under `key`, if there is one. -/
def modify (m : KeyedList κ β) (key : κ) (f : β → β) : KeyedList κ β :=
  m.mapValues fun k value => if k = key then f value else value

/-- Writes `value` under `key` only when the key is absent. -/
def putNew (m : KeyedList κ β) (key : κ) (value : β) : KeyedList κ β :=
  if m.contains key then m else m.put key value

/-- Writes every pair in turn; a later pair wins over an earlier one with the same key. -/
def putAll (m : KeyedList κ β) (pairs : List (κ × β)) : KeyedList κ β :=
  pairs.foldl (fun m e => m.put e.1 e.2) m

/-- The keyed list written pair by pair. -/
def ofList (pairs : List (κ × β)) : KeyedList κ β := empty.putAll pairs

/-- The entries of `later` written over those of `m`. -/
def update (m later : KeyedList κ β) : KeyedList κ β := m.putAll later.entries

end KeyedList

end Schematic
