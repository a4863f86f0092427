import Argennon.Core.Primitives
import Mathlib.Data.List.Sort
import Mathlib.Data.List.Perm.Basic

/- `util::OrderedStaticMap` (`util/OrderedStaticMap.hpp`).

   A map is two vectors of one length; the constructor refuses any other pair.
   Looking a key up is a binary search, which finds every key only when the keys
   are sorted: `find_ok` holds for any key vector, `find_sorted` for sorted ones. -/
namespace Argennon

/-- Two vectors, `values[i]` belonging to `keys[i]`. -/
structure OrderedStaticMap (K V : Type) where
  keys : List K
  values : List V
  size_eq : keys.length = values.length

namespace OrderedStaticMap
variable {K V : Type}

/-- The constructor from a key and a value vector. -/
def mk? (keys : List K) (values : List V) : Except Exn (OrderedStaticMap K V) :=
  if h : keys.length = values.length then .ok ⟨keys, values, h⟩
  else .error (.invalidArgument "size mismatch in keys and values")

/-- No keys. -/
def empty : OrderedStaticMap K V := ⟨[], [], rfl⟩

/-- One key with its value. -/
def single (key : K) (value : V) : OrderedStaticMap K V := ⟨[key], [value], rfl⟩

def size (m : OrderedStaticMap K V) : Nat := m.keys.length

/-- The keys with their values, in order. -/
def entries (m : OrderedStaticMap K V) : List (K × V) := m.keys.zip m.values

theorem map_snd_entries (m : OrderedStaticMap K V) : m.entries.map Prod.snd = m.values :=
  List.map_snd_zip m.size_eq.ge

theorem map_fst_entries (m : OrderedStaticMap K V) : m.entries.map Prod.fst = m.keys :=
  List.map_fst_zip m.size_eq.le

section
variable {W : Type} {m : OrderedStaticMap K V} {f : K × V → Except Exn W}

/-- A map made of what a loop over the entries collects. -/
theorem mapM_mk?_ok {m' : OrderedStaticMap K W} (h : (m.entries.mapM f >>= mk? m.keys) = .ok m') :
    m'.keys = m.keys ∧ List.Forall₂ (fun e w => f e = .ok w) m.entries m'.values := by
  obtain ⟨ws, hws, h⟩ := bind_ok.mp h
  unfold mk? at h
  split at h
  · obtain rfl := Except.ok.inj h
    exact ⟨rfl, mapM_ok_iff.mp hws⟩
  · cases h

/-- Every entry has its value, so only the loop can throw. -/
theorem mapM_mk? (m : OrderedStaticMap K V) (f : K × V → Except Exn W) :
    (∃ ws m', m.entries.mapM f = .ok ws ∧ (m.entries.mapM f >>= mk? m.keys) = .ok m') ∨
      ∃ e, m.entries.mapM f = .error e ∧ (m.entries.mapM f >>= mk? m.keys) = .error e := by
  cases h : m.entries.mapM f with
  | error e => exact .inr ⟨e, rfl, rfl⟩
  | ok ws =>
    have hlen : m.keys.length = ws.length := by
      rw [← (mapM_ok_iff.mp h).length_eq, entries, List.length_zip, ← m.size_eq, Nat.min_self]
    exact .inl ⟨ws, ⟨m.keys, ws, hlen⟩, rfl, dif_pos hlen⟩

theorem mapM_mk?_ok_iff :
    (∃ m', (m.entries.mapM f >>= mk? m.keys) = .ok m') ↔ ∀ e ∈ m.entries, ∃ w, f e = .ok w := by
  rw [← mapM_returns_iff]
  rcases mapM_mk? m f with ⟨ws, m', h1, h2⟩ | ⟨e, h1, h2⟩
  · exact iff_of_true ⟨m', h2⟩ ⟨ws, h1⟩
  · exact iff_of_false (by simp [h2]) (by simp [h1])

theorem mapM_mk?_error_iff {p : Exn → Prop} :
    (∃ e, (m.entries.mapM f >>= mk? m.keys) = .error e ∧ p e) ↔ ThrowsFirst f p m.entries := by
  rw [← mapM_error_iff]
  rcases mapM_mk? m f with ⟨ws, m', h1, h2⟩ | ⟨e, h1, h2⟩
  · rw [h2]
    simp [h1]
  · rw [h2]
    simp [h1]

end

section Find
variable [LinearOrder K]

/-- The loop of `find` on `[begin, end)`. -/
def findLoop (sortedKeys : List K) (key : K) : Nat → Nat → Nat → Except Exn Nat
  | 0, _, _ => .error .outOfFuel
  | fuel + 1, first, last =>
    let mid := (first + last) / 2
    if mid < last then
      match sortedKeys[mid]? with
      | none => .error .undefined
      | some k =>
        if key = k then .ok mid
        else if key < k then findLoop sortedKeys key fuel first mid
        else findLoop sortedKeys key fuel (mid + 1) last
    else .error (.outOfRange "key not found")

/-- `find`: the searched interval shrinks at every turn, so its length plus one
turn is enough. -/
def find (sortedKeys : List K) (key : K) : Except Exn Nat :=
  findLoop sortedKeys key (sortedKeys.length + 1) 0 sortedKeys.length

/-- `at` -/
def «at» (m : OrderedStaticMap K V) (key : K) : Except Exn V := do
  vecGet m.values (← find m.keys key)

theorem findLoop_ok {keys : List K} {key : K} : ∀ {fuel first last i : Nat},
    findLoop keys key fuel first last = .ok i → keys[i]? = some key
  | 0, _, _, _, h => by simp [findLoop] at h
  | fuel + 1, first, last, i, h => by
    simp only [findLoop] at h
    split at h
    · split at h
      · simp at h
      · rename_i k hk
        split at h
        · rename_i hkey
          simp only [Except.ok.injEq] at h
          rw [← h, hk, hkey]
        · split at h <;> exact findLoop_ok h
    · simp at h

theorem find_ok {keys : List K} {key : K} {i : Nat} (h : find keys key = .ok i) :
    keys[i]? = some key := findLoop_ok h

/-- The loop ends within its budget, with an index or with the exception, sorted or not. -/
theorem findLoop_cases {keys : List K} (key : K) : ∀ {fuel first last : Nat}, last ≤ keys.length →
    last - first < fuel →
    (∃ i, findLoop keys key fuel first last = .ok i) ∨
      findLoop keys key fuel first last = .error (.outOfRange "key not found")
  | 0, _, _, _, hf => by omega
  | fuel + 1, first, last, hl, hf => by
    simp only [findLoop]
    split
    · rename_i hmid
      have hlt : (first + last) / 2 < keys.length := by omega
      simp only [List.getElem?_eq_getElem hlt]
      split
      · exact .inl ⟨_, rfl⟩
      · split
        · exact findLoop_cases key (by omega) (by omega)
        · exact findLoop_cases key hl (by omega)
    · exact .inr rfl

theorem find_cases (keys : List K) (key : K) :
    (∃ i, find keys key = .ok i ∧ i < keys.length) ∨ find keys key =
    .error (.outOfRange "key not found") := by
  obtain ⟨i, hi⟩ | he :=
    findLoop_cases key (Nat.le_refl keys.length) (by omega : keys.length - 0 < keys.length + 1)
  · exact .inl ⟨i, hi, (List.getElem?_eq_some_iff.mp (find_ok hi)).1⟩
  · exact .inr he

/-- Looking a key up gives a value of the map or reports the key missing. -/
theorem at_cases (m : OrderedStaticMap K V) (key : K) :
    (∃ v, m.at key = .ok v ∧ (key, v) ∈ m.entries) ∨
      m.at key = .error (.outOfRange "key not found") := by
  unfold OrderedStaticMap.at
  obtain ⟨i, hi, hlt⟩ | he := find_cases m.keys key
  · have hvalue : i < m.values.length := m.size_eq ▸ hlt
    rw [hi]
    refine .inl ⟨m.values[i], vecGet_lt hvalue, List.mem_of_getElem? (i := i) ?_⟩
    exact List.getElem?_zip_eq_some.mpr ⟨find_ok hi, List.getElem?_eq_getElem hvalue⟩
  · rw [he]
    exact .inr rfl

/-- On sorted keys the loop ends with the key's index or reports it missing. -/
theorem findLoop_sorted {keys : List K} (hs : keys.Pairwise (· < ·)) {key : K} :
    ∀ {fuel first last : Nat}, last ≤ keys.length → last - first < fuel →
    (∀ i, keys[i]? = some key → first ≤ i ∧ i < last) →
    (∃ i, keys[i]? = some key ∧ findLoop keys key fuel first last = .ok i) ∨
      (key ∉ keys ∧ findLoop keys key fuel first last = .error (.outOfRange "key not found"))
  | 0, _, _, _, hf, _ => by omega
  | fuel + 1, first, last, hl, hf, hin => by
    simp only [findLoop]
    split
    · rename_i hmid
      have hlt : (first + last) / 2 < keys.length := by omega
      have hmono := List.pairwise_iff_getElem.mp hs
      simp only [List.getElem?_eq_getElem hlt]
      split
      · rename_i hkey
        exact .inl ⟨_, by rw [List.getElem?_eq_getElem hlt, hkey], rfl⟩
      · split
        · rename_i hne hlt'
          -- the key of the middle is too large: an index beyond it would hold a larger key
          refine findLoop_sorted hs (by omega) (by omega) (fun i hi => ⟨(hin i hi).1, ?_⟩)
          obtain ⟨hil, hik⟩ := List.getElem?_eq_some_iff.mp hi
          by_contra hge
          rcases Nat.lt_or_ge ((first + last) / 2) i with h | h
          · have := hmono _ _ hlt hil h
            rw [hik] at this
            exact absurd hlt' (not_lt.mpr this.le)
          · have : (first + last) / 2 = i := by omega
            subst this
            exact hne hik.symm
        · rename_i hne hnlt
          refine findLoop_sorted hs hl (by omega) (fun i hi => ⟨?_, (hin i hi).2⟩)
          obtain ⟨hil, hik⟩ := List.getElem?_eq_some_iff.mp hi
          by_contra hge
          rcases Nat.lt_or_ge i ((first + last) / 2) with h | h
          · have := hmono _ _ hil hlt h
            rw [hik] at this
            exact hnlt this
          · have : (first + last) / 2 = i := by omega
            subst this
            exact hne hik.symm
    · rename_i hmid
      -- the interval is empty
      refine .inr ⟨fun hmem => ?_, rfl⟩
      obtain ⟨i, hil, hik⟩ := List.getElem_of_mem hmem
      have := hin i (by rw [List.getElem?_eq_getElem hil, hik])
      omega

theorem find_sorted {keys : List K} (hs : keys.Pairwise (· < ·)) (key : K) :
    (∃ i, keys[i]? = some key ∧ find keys key = .ok i) ∨
      (key ∉ keys ∧ find keys key = .error (.outOfRange "key not found")) := by
  refine findLoop_sorted hs (Nat.le_refl _) (by omega) (fun i hi => ⟨Nat.zero_le _, ?_⟩)
  exact (List.getElem?_eq_some_iff.mp hi).1

/-- On sorted keys every entry is found at its index. -/
theorem find_entry {m : OrderedStaticMap K V} (hs : m.keys.Pairwise (· < ·)) {i : Nat} {e : K × V}
    (he : m.entries[i]? = some e) : find m.keys e.1 = .ok i := by
  obtain ⟨hkey, -⟩ : m.keys[i]? = some e.1 ∧ m.values[i]? = some e.2 :=
    List.getElem?_zip_eq_some.mp he
  obtain ⟨j, hj, hfind⟩ | ⟨hnone, -⟩ := find_sorted hs e.1
  · obtain ⟨hlt, -⟩ := List.getElem?_eq_some_iff.mp hkey
    have hnodup : m.keys.Nodup := hs.imp fun h => ne_of_lt h
    rw [hfind, (List.getElem?_inj hlt hnodup).mp (hkey.trans hj.symm)]
  · exact absurd (List.mem_of_getElem? hkey) hnone

end Find
end OrderedStaticMap
end Argennon
