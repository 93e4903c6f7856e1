import Mathlib.Data.Option.Basic
import Mathlib.Data.Int.Order.Basic

/-! Maps whose cells may carry a deadline. A cell that is due is invisible whether or not
it is still stored, so an implementation may drop it at any later moment. -/
namespace ExpiringMap
variable {Key Cell Other : Type} (deadlineOf : Cell → Option Int)

def Due (cell : Cell) (now : Int) : Prop := ∃ deadline ∈ deadlineOf cell, deadline ≤ now

instance (cell : Cell) (now : Int) : Decidable (Due deadlineOf cell now) :=
  match found : deadlineOf cell with
  | none => .isFalse (by simp [Due,found])
  | some deadline => decidable_of_iff (deadline ≤ now) (by simp [Due,found])

def visible (map : Key → Option Cell) (now : Int) (key : Key) : Option Cell :=
  (map key).filter (fun cell => ¬ Due deadlineOf cell now)

/-- `smaller` is `larger` without some of the cells that are due. -/
def Trims (now : Int) (larger smaller : Key → Option Cell) : Prop :=
  ∀ key, smaller key = larger key ∨ smaller key = none ∧ ∃ cell ∈ larger key, Due deadlineOf cell now

variable {deadlineOf}

theorem Due.later {cell : Cell} {now later : Int} (due : Due deadlineOf cell now) (order : now ≤ later) :
    Due deadlineOf cell later := by
  obtain ⟨deadline,member,bound⟩ := due
  exact ⟨deadline,member,le_trans bound order⟩

theorem visible_eq_some {map : Key → Option Cell} {now : Int} {key : Key} {cell : Cell} :
    visible deadlineOf map now key = some cell ↔ map key = some cell ∧ ¬ Due deadlineOf cell now := by
  simp [visible,Option.filter_eq_some_iff]

theorem visible_eq_none {map : Key → Option Cell} {now : Int} {key : Key} :
    visible deadlineOf map now key = none ↔ ∀ cell ∈ map key, Due deadlineOf cell now := by
  simp [visible,Option.filter_eq_none_iff]

/-- A cell that is due stays due, so what is visible later is found among what is visible now. -/
theorem visible_later {map : Key → Option Cell} {now later : Int} (order : now ≤ later) (key : Key) :
    visible deadlineOf map later key =
      (visible deadlineOf map now key).filter (fun cell => ¬ Due deadlineOf cell later) := by
  unfold visible
  cases map key with
  | none => rfl
  | some cell =>
    by_cases due : Due deadlineOf cell now
    · simp [Option.filter,due,due.later order]
    · simp [Option.filter,due]

theorem Trims.refl (now : Int) (map : Key → Option Cell) : Trims deadlineOf now map map :=
  fun _ => Or.inl rfl

theorem Trims.trans {now : Int} {first second third : Key → Option Cell} (one : Trims deadlineOf now first second)
    (two : Trims deadlineOf now second third) : Trims deadlineOf now first third := by
  intro key
  rcases two key with same | ⟨gone,cell,found,due⟩
  · rw [same]
    exact one key
  · rcases one key with kept | ⟨lost,_⟩
    · exact Or.inr ⟨gone,cell,kept ▸ found,due⟩
    · rw [lost] at found
      cases found

theorem Trims.later {now later : Int} {larger smaller : Key → Option Cell}
    (trims : Trims deadlineOf now larger smaller) (order : now ≤ later) :
    Trims deadlineOf later larger smaller := by
  intro key
  rcases trims key with same | ⟨gone,cell,found,due⟩
  · exact Or.inl same
  · exact Or.inr ⟨gone,cell,found,due.later order⟩

theorem Trims.mem {now : Int} {larger smaller : Key → Option Cell} (trims : Trims deadlineOf now larger smaller)
    {key : Key} {cell : Cell} (found : smaller key = some cell) : larger key = some cell := by
  rcases trims key with same | ⟨gone,_⟩
  · rw [← same,found]
  · rw [gone] at found
    cases found

/-- What is visible does not depend on what has been trimmed. -/
theorem Trims.visible_eq {now : Int} {larger smaller : Key → Option Cell}
    (trims : Trims deadlineOf now larger smaller) (key : Key) :
    visible deadlineOf smaller now key = visible deadlineOf larger now key := by
  rcases trims key with same | ⟨gone,cell,found,due⟩
  · rw [visible,visible,same]
  · rw [visible_eq_none.mpr (by simp [gone]),eq_comm,visible_eq_none]
    intro other member
    rwa [Option.mem_unique member found]

theorem Trims.assign {now : Int} {larger smaller after next : Key → Option Cell}
    (trims : Trims deadlineOf now larger smaller)
    (same : ∀ key, next key = after key ∨ next key = smaller key ∧ after key = larger key) :
    Trims deadlineOf now after next := by
  intro key
  rcases same key with equal | ⟨kept,source⟩
  · exact Or.inl equal
  · rw [kept,source]
    exact trims key

theorem Trims.map {now : Int} {larger smaller : Key → Option Cell} (trims : Trims deadlineOf now larger smaller)
    (view : Cell → Other) {deadlineOf' : Other → Option Int}
    (same : ∀ cell, deadlineOf' (view cell) = deadlineOf cell) :
    Trims deadlineOf' now (fun key => (larger key).map view) (fun key => (smaller key).map view) := by
  intro key
  rcases trims key with equal | ⟨gone,cell,found,deadline,member,bound⟩
  · exact Or.inl (congrArg _ equal)
  · refine Or.inr ⟨congrArg (Option.map view) gone,view cell,?_,deadline,?_,bound⟩
    · exact Option.mem_map_of_mem view found
    · rwa [same]

theorem visible_map (map : Key → Option Cell) (view : Cell → Other) {deadlineOf' : Other → Option Int}
    (same : ∀ cell, deadlineOf' (view cell) = deadlineOf cell) (now : Int) (key : Key) :
    visible deadlineOf' (fun key => (map key).map view) now key =
      (visible deadlineOf map now key).map view := by
  change ((map key).map view).filter _ = ((map key).filter _).map view
  cases map key with
  | none => rfl
  | some cell => simp [Option.filter,Due,same,apply_ite (Option.map view)]

end ExpiringMap
