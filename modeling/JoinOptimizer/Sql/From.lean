import JoinOptimizer.Sql.JoinGraph
import JoinOptimizer.Lib.Assoc

/-! The tables that a FROM list names, and that the maps of `parse_sql` have no others. -/

namespace JoinOptimizer

open Lib

def TableRef.name? : TableRef → Option String
  | tableName name _ => some name
  | other => none

/-- The tables of names behind those of other names: a table is numbered among those of its name. -/
def numberNames (seen : List String) : List String → List TableEntity
  | [] => []
  | name :: names => ⟨name, seen.count name⟩ :: numberNames (seen ++ [name]) names

/-- The tables of a FROM list. -/
def fromEntities (list : List TableRef) : List TableEntity :=
  numberNames [] (list.filterMap TableRef.name?)

example : fromEntities [.tableName "t" (some "a"), .tableName "u" none, .tableName "t" (some "b")] =
    [⟨"t", 0⟩, ⟨"u", 0⟩, ⟨"t", 1⟩] := by
  decide

theorem numberNames_concat (seen names : List String) (name : String) :
    numberNames seen (names ++ [name]) =
      numberNames seen names ++ [⟨name, (seen ++ names).count name⟩] := by
  induction names generalizing seen with
  | nil => simp [numberNames]
  | cons n names ih =>
    rw [List.cons_append, numberNames, numberNames, ih, List.append_assoc]
    rfl

/-- The number of a table is below the number of tables of its name. -/
theorem mem_numberNames {names : List String} {e : TableEntity} :
    e ∈ numberNames [] names ↔ 0 ≤ e.id ∧ e.id < names.count e.table := by
  induction names using List.reverseRecOn with
  | nil => simp [numberNames]
  | append_singleton names name ih =>
    rw [numberNames_concat, List.mem_append, List.mem_singleton, ih, List.nil_append,
      List.count_append, List.count_singleton']
    obtain ⟨table, id⟩ := e
    simp only [TableEntity.mk.injEq]
    by_cases heq : table = name
    · subst heq
      simp only [true_and, if_true]
      omega
    · simp [heq, Ne.symm heq]

theorem nodup_numberNames (names : List String) : (numberNames [] names).Nodup := by
  induction names using List.reverseRecOn with
  | nil => exact .nil
  | append_singleton names name ih =>
    rw [numberNames_concat]
    refine List.nodup_append.mpr ⟨ih, List.nodup_singleton _, fun e he e' he' heq => ?_⟩
    obtain rfl := List.mem_singleton.mp he'
    have hlt := (mem_numberNames.mp he).2
    rw [heq] at hlt
    simp at hlt

theorem map_fst_emplace {κ ν : Type} [DecidableEq κ] {m : List (κ × ν)} {k : κ}
    (h : k ∉ m.map Prod.fst) (v : ν) : (emplace m k v).map Prod.fst = m.map Prod.fst ++ [k] := by
  unfold emplace
  rw [lookup_eq_none_of_not_mem h]
  simp

namespace Names

/-- The tables of the maps. -/
def tables (names : Names) : List TableEntity := names.columnMap.map Prod.fst

/-- What the maps hold after tables of the names `pre`. -/
structure Named (pre : List String) (names : Names) : Prop where
  counts : ∀ name, names.tableCounts.lookup name =
    if pre.count name = 0 then none else some (pre.count name)
  tables : names.tables = numberNames [] pre
  aliases : ∀ tableAlias entity, names.aliasMap.lookup tableAlias = some entity →
    entity ∈ names.tables

theorem countTable_spec {pre : List String} {counts : List (String × Nat)}
    (h : ∀ name, counts.lookup name = if pre.count name = 0 then none else some (pre.count name))
    (name : String) : (countTable counts name).1 = pre.count name + 1 ∧
      ∀ name', (countTable counts name).2.lookup name' =
        if (pre ++ [name]).count name' = 0 then none else some ((pre ++ [name]).count name') := by
  have hcount : ∀ name', (pre ++ [name]).count name' =
      pre.count name' + if name' = name then 1 else 0 := by
    intro name'
    rw [List.count_append, List.count_singleton']
    simp only [eq_comm]
  have hname := h name
  unfold countTable
  split
  · next hnone =>
    have hzero : pre.count name = 0 := by
      by_contra hne
      rw [hnone, if_neg hne] at hname
      cases hname
    refine ⟨by rw [hzero], fun name' => ?_⟩
    rw [lookup_emplace, h name', hcount]
    by_cases heq : name' = name
    · subst heq
      simp [hzero]
    · simp [heq]
  · next n hn =>
    have hpos : pre.count name ≠ 0 := by
      rintro hzero
      rw [hn, if_pos hzero] at hname
      cases hname
    rw [hn, if_neg hpos, Option.some.injEq] at hname
    refine ⟨by rw [hname], fun name' => ?_⟩
    rw [lookup_mapIf, h name', hcount]
    by_cases heq : name' = name
    · subst heq
      simp [hpos, hname]
    · simp [heq]

theorem Named.addTable {pre : List String} {names names' : Names} (h : names.Named pre)
    {schema : Schema} {name : String} {tableAlias : Option String}
    (hadd : addTable schema names (.tableName name tableAlias) = .ok names') :
    names'.Named (pre ++ [name]) := by
  obtain ⟨hcount, hcounts⟩ := countTable_spec h.counts name
  simp only [Names.addTable, hcount] at hadd
  split at hadd
  · cases hadd
  · cases hadd
    have hentity : ((pre.count name + 1 : Nat) : Int) - 1 = pre.count name := by omega
    have hnew : (⟨name, pre.count name⟩ : TableEntity) ∉ names.tables := by
      rw [h.tables]
      intro hmem
      have hlt := (mem_numberNames.mp hmem).2
      simp at hlt
    rw [hentity]
    refine ⟨hcounts, ?_, fun tableAlias' entity halias => ?_⟩
    · rw [numberNames_concat, List.nil_append, ← h.tables]
      exact map_fst_emplace hnew _
    · show entity ∈ (emplace names.columnMap _ _).map Prod.fst
      rw [map_fst_emplace hnew, List.mem_append, List.mem_singleton]
      cases tableAlias with
      | none => exact .inl (h.aliases tableAlias' entity halias)
      | some tableAlias =>
        dsimp only at halias
        rw [lookup_emplace, Option.or_eq_some_iff] at halias
        rcases halias with halias | ⟨-, halias⟩
        · exact .inl (h.aliases tableAlias' entity halias)
        · split at halias
          · exact .inr (Option.some.inj halias).symm
          · cases halias

theorem named_ofFrom {schema : Schema} {list : List TableRef} {names : Names}
    (h : ofFrom schema (some list) = .ok names) : names.Named (list.filterMap TableRef.name?) := by
  refine foldlM_invariant (P := fun pre names => Named (pre.filterMap TableRef.name?) names) h ?_ ?_
  · exact ⟨fun _ => rfl, rfl, nofun⟩
  · intro pre ref names names' _ hnames hadd
    cases ref with
    | other => cases hadd
    | tableName name tableAlias =>
      rw [List.filterMap_append]
      exact hnames.addTable hadd

end Names

section Columns

variable {scope : Scope} {pre : List String} (hnamed : scope.names.Named pre)
include hnamed

/-- The only table of a name is the one with number 0. -/
theorem Scope.mem_tables_of_count {table : String}
    (h : scope.names.tableCounts.lookup table = some 1) : ⟨table, 0⟩ ∈ scope.names.tables := by
  rw [hnamed.tables]
  have hcount := hnamed.counts table
  rw [h] at hcount
  split at hcount
  · cases hcount
  · refine mem_numberNames.mpr ⟨Int.le_refl 0, ?_⟩
    rw [← Option.some.inj hcount]
    exact Int.zero_lt_one

/-- A table that `extract_column_and_table` finds is in the FROM list, or nothing has set it. -/
theorem Scope.mem_tables_of_leftColumn {o : Operand} {x : String × TableEntity}
    (h : scope.leftColumn o = .ok x) : x.2 ∈ scope.names.tables ∨ x.2 = scope.noEntity := by
  have hcount : ∀ {table : String} {count : Nat}, scope.names.tableCounts.lookup table = some count →
      count = 1 → ⟨table, 0⟩ ∈ scope.names.tables := by
    rintro table count hlookup rfl
    exact Scope.mem_tables_of_count hnamed hlookup
  cases o with
  | literalInt ival => cases h
  | literalString name => cases h
  | other type => cases h
  | columnRef column table =>
    cases table with
    | some table =>
      obtain ⟨entity, hentity, h⟩ := bind_eq_ok.mp h
      cases h
      unfold Scope.tableOfName at hentity
      split at hentity
      · next halias =>
        cases hentity
        exact .inl (hnamed.aliases _ _ halias)
      · split at hentity
        · next hlookup =>
          split at hentity
          · next hone =>
            cases hentity
            exact .inl (hcount hlookup hone)
          · cases hentity
        · cases hentity
    | none =>
      obtain ⟨entity, hentity, h⟩ := bind_eq_ok.mp h
      cases h
      unfold Scope.tableOfColumn at hentity
      split at hentity
      · cases hentity
      · split at hentity
        · next hlookup =>
          split at hentity
          · next hone =>
            cases hentity
            exact .inl (hcount hlookup hone)
          · cases hentity
        · cases hentity
          exact .inr rfl
      · cases hentity

end Columns

theorem Scope.mem_tables_of_columnNumber {scope : Scope} {column : String} {entity : TableEntity} {i : Nat}
    (h : scope.columnNumber column entity = .ok i) : entity ∈ scope.names.tables := by
  obtain ⟨columns, hcolumns, -⟩ := Scope.columnNumber_eq_ok.mp h
  exact mem_keys_of_lookup hcolumns

end JoinOptimizer
