import VsHttpServer.CString
import VsHttpServer.StdMap
import Mathlib.Data.List.FinRange

/-!
# Results of a query

`Mysql_HandleSQL` reads all the result sets that the server sends for a query and
inserts every value, under the name of its column, into `m_MapRes`. It does not clear
the map before, and `insert` keeps the entry that a key has already.

What the server answers is given with each call: the outcomes of `mysql_query` and
`mysql_ping`, and the result sets, where `mysql_store_result` returns `NULL` for a
statement without one. A value is made of any bytes; the `std::string` made of its pointer
ends at the first NUL.

* `run_eq`: `m_MapRes` after a sequence of calls has, under each name, the first value
  that any of the calls returned, up to its first NUL;
* `ofLastCall_iff`: it has the names and values of the last call if and only if
  what it had before is among them, and so is what a NUL leaves of a new value.
-/

namespace VsHttpServer

open CString StdMap

/-- A C string. -/
abbrev Text := List UInt8

/-- The bytes of a field of a row, and `none` for `NULL`. -/
abbrev RowValue := Option (List UInt8)

/-- A `MYSQL_RES`: the names of the fields, which are C strings, and the rows. -/
structure ResultSet where
  numFields : Nat
  field : Fin numFields → Text
  rows : List (Fin numFields → RowValue)

/-- `(row[i]==NULL) ? "NULL":row[i]`, as a `std::string`: its length is not that of
    `mysql_fetch_lengths`. -/
def rowText : RowValue → Text
  | none => ascii "NULL"
  | some v => cstr v

/-- The value that was returned, or `"NULL"`. -/
def RowValue.bytes : RowValue → List UInt8
  | none => ascii "NULL"
  | some v => v

/-- What the MySQL library returns in a call of `Mysql_HandleSQL`. -/
structure SqlCall where
  /-- `mysql_query`, which is 0 when it succeeds. -/
  query : Int
  /-- `mysql_ping` after a query that failed. -/
  ping : Int
  /-- The second `mysql_query`. -/
  retry : Int
  /-- The first `mysql_store_result`. -/
  result : Option ResultSet
  /-- Those after a `mysql_next_result` that returned 0. -/
  nextResults : List (Option ResultSet)

namespace SqlCall

/-- The query, or its repetition, succeeds. -/
def Successful (c : SqlCall) : Prop := c.query = 0 ∨ c.ping = 0 ∧ c.retry = 0

instance (c : SqlCall) : Decidable c.Successful :=
  inferInstanceAs (Decidable (c.query = 0 ∨ c.ping = 0 ∧ c.retry = 0))

/-- The result sets of the call. -/
def resultSets (c : SqlCall) : List ResultSet :=
  (c.result :: c.nextResults).flatMap Option.toList

/-- `v` is a value of the call in the column `name`. -/
def Occurs (c : SqlCall) (name : Text) (v : List UInt8) : Prop :=
  ∃ rs ∈ c.resultSets, ∃ row ∈ rs.rows, ∃ i, rs.field i = name ∧ RowValue.bytes (row i) = v

/-- `name` is a column of a result set of the call that is not empty. -/
def IsColumn (c : SqlCall) (name : Text) : Prop :=
  ∃ rs ∈ c.resultSets, rs.rows ≠ [] ∧ ∃ i, rs.field i = name

theorem isColumn_iff {c : SqlCall} {name : Text} : c.IsColumn name ↔ ∃ v, c.Occurs name v := by
  constructor
  · rintro ⟨rs, hrs, hne, i, hi⟩
    obtain ⟨row, hrow⟩ := List.exists_mem_of_ne_nil rs.rows hne
    exact ⟨RowValue.bytes (row i), rs, hrs, row, hrow, i, hi, rfl⟩
  · rintro ⟨v, rs, hrs, row, hrow, i, hi, -⟩
    exact ⟨rs, hrs, List.ne_nil_of_mem hrow, i, hi⟩

end SqlCall

/-- `m_MapRes`. -/
abbrev MapRes := Text → Option Text

namespace MysqlCPP

/-- The loop over the fields of a row. -/
def insertRow (rs : ResultSet) (m : MapRes) (row : Fin rs.numFields → RowValue) : MapRes :=
  (List.finRange rs.numFields).foldl (fun m i => StdMap.insert m (rs.field i, rowText (row i))) m

/-- One turn of the outer loop. -/
def storeResult (m : MapRes) : Option ResultSet → MapRes
  | some rs => rs.rows.foldl (insertRow rs) m
  | none => m

/-- `Mysql_HandleSQL`; the exception is that of a query that fails twice. -/
def mysqlHandleSQL (m : MapRes) (c : SqlCall) : Except Unit MapRes :=
  if c.query ≠ 0 ∧ c.ping = 0 ∧ c.retry ≠ 0 then .error ()
  else .ok ((c.result :: c.nextResults).foldl storeResult m)

/-- A sequence of calls on one object. -/
def run (m : MapRes) (cs : List SqlCall) : Except Unit MapRes := cs.foldlM mysqlHandleSQL m

/-- The object when it is made. -/
def init : MapRes := fun _ => none

/-! ## The entries of a call -/

/-- The names and values of a row. -/
def rowAnswers (rs : ResultSet) (row : Fin rs.numFields → RowValue) : List (Text × RowValue) :=
  (List.finRange rs.numFields).map fun i => (rs.field i, row i)

/-- The names and values that a call returns, in their order. -/
def answers (c : SqlCall) : List (Text × RowValue) :=
  c.resultSets.flatMap fun rs => rs.rows.flatMap (rowAnswers rs)

/-- The entries that are inserted for answers. -/
def entriesOf (as : List (Text × RowValue)) : List (Text × Text) :=
  as.map fun a => (a.1, rowText a.2)

theorem insertRow_eq (rs : ResultSet) (m : MapRes) (row : Fin rs.numFields → RowValue) :
    insertRow rs m row = (entriesOf (rowAnswers rs row)).foldl StdMap.insert m := by
  rw [insertRow, entriesOf, rowAnswers, List.map_map, List.foldl_map]
  rfl

theorem storeResult_eq (m : MapRes) (r : Option ResultSet) :
    storeResult m r =
      (entriesOf (r.toList.flatMap fun rs => rs.rows.flatMap (rowAnswers rs))).foldl
        StdMap.insert m := by
  cases r with
  | none => rfl
  | some rs =>
    rw [storeResult, Option.toList_some, List.flatMap_singleton, entriesOf, List.map_flatMap,
      List.foldl_flatMap]
    congr 1
    funext m row
    exact insertRow_eq rs m row

/-- A call that does not throw inserts its entries. -/
theorem mysqlHandleSQL_of_not {c : SqlCall} (hc : ¬(c.query ≠ 0 ∧ c.ping = 0 ∧ c.retry ≠ 0))
    (m : MapRes) : mysqlHandleSQL m c = .ok ((entriesOf (answers c)).foldl StdMap.insert m) := by
  rw [mysqlHandleSQL, if_neg hc]
  congr 1
  rw [answers, SqlCall.resultSets, List.flatMap_assoc, entriesOf, List.map_flatMap,
    List.foldl_flatMap]
  congr 1
  funext m r
  exact storeResult_eq m r

theorem mysqlHandleSQL_eq {c : SqlCall} (hc : c.Successful) (m : MapRes) :
    mysqlHandleSQL m c = .ok ((entriesOf (answers c)).foldl StdMap.insert m) := by
  refine mysqlHandleSQL_of_not ?_ m
  rintro ⟨hquery, hping, hretry⟩
  exact hc.elim hquery fun h => hretry h.2

theorem occurs_iff {c : SqlCall} {name : Text} {v : List UInt8} :
    c.Occurs name v ↔ ∃ r, (name, r) ∈ answers c ∧ RowValue.bytes r = v := by
  simp only [SqlCall.Occurs, answers, rowAnswers, List.mem_flatMap, List.mem_map,
    List.mem_finRange, true_and, Prod.mk.injEq]
  constructor
  · rintro ⟨rs, hrs, row, hrow, i, hi, hv⟩
    exact ⟨row i, ⟨rs, hrs, row, hrow, i, hi, rfl⟩, hv⟩
  · rintro ⟨r, ⟨rs, hrs, row, hrow, i, hi, rfl⟩, hv⟩
    exact ⟨rs, hrs, row, hrow, i, hi, hv⟩

/-- The first value returned under `name` in a sequence of calls. -/
def firstAnswer (cs : List SqlCall) (name : Text) : Option RowValue :=
  (cs.flatMap answers).lookup name

/-- What is inserted for it. -/
def firstValue (cs : List SqlCall) (name : Text) : Option Text := (firstAnswer cs name).map rowText

theorem firstAnswer_append (cs ds : List SqlCall) (name : Text) :
    firstAnswer (cs ++ ds) name = (firstAnswer cs name).or (firstAnswer ds name) := by
  rw [firstAnswer, List.flatMap_append, List.lookup_append]
  rfl

/-- Insertion after the first answers of some calls. -/
theorem foldl_insert_firstValue (cs : List SqlCall) (c : SqlCall) :
    (entriesOf (answers c)).foldl StdMap.insert (firstValue cs) = firstValue (cs ++ [c]) := by
  funext name
  rw [foldl_insert, entriesOf, lookup_map, firstValue, firstValue, firstAnswer_append,
    firstAnswer, firstAnswer, List.flatMap_singleton]
  cases (cs.flatMap answers).lookup name with
  | none => rfl
  | some r => rfl

/-- After successful calls, the map has the first value of each column. -/
theorem run_eq {cs : List SqlCall} (hcs : ∀ c ∈ cs, c.Successful) (bs : List SqlCall) :
    run (firstValue bs) cs = .ok (firstValue (bs ++ cs)) := by
  induction cs generalizing bs with
  | nil =>
    rw [List.append_nil]
    rfl
  | cons c cs ih =>
    rw [List.forall_mem_cons] at hcs
    have hstep := mysqlHandleSQL_eq hcs.1 (firstValue bs)
    rw [foldl_insert_firstValue] at hstep
    rw [List.append_cons, ← ih hcs.2, run, List.foldlM_cons, hstep]
    rfl

theorem run_init {cs : List SqlCall} (hcs : ∀ c ∈ cs, c.Successful) :
    run init cs = .ok (firstValue cs) :=
  run_eq hcs []

/-- The map has the columns of the call, with values of the call. -/
structure OfLastCall (c : SqlCall) (m : MapRes) : Prop where
  keys : ∀ name, (m name).isSome ↔ c.IsColumn name
  values : ∀ name v, m name = some v → c.Occurs name v

/-- What is inserted for the first value of each column is a value of the last call. -/
theorem ofLastCall_firstValue_iff {cs : List SqlCall} {c : SqlCall} :
    OfLastCall c (firstValue (cs ++ [c])) ↔
      ∀ name r, firstAnswer (cs ++ [c]) name = some r → c.Occurs name (rowText r) := by
  constructor
  · intro h name r hr
    refine h.values name (rowText r) ?_
    rw [firstValue, hr, Option.map_some]
  · intro h
    refine ⟨fun name => ⟨fun hsome => ?_, fun hcol => ?_⟩, fun name v hv => ?_⟩
    · rw [firstValue, Option.isSome_map] at hsome
      obtain ⟨r, hr⟩ := Option.isSome_iff_exists.1 hsome
      exact SqlCall.isColumn_iff.2 ⟨rowText r, h name r hr⟩
    · obtain ⟨v, hv⟩ := SqlCall.isColumn_iff.1 hcol
      obtain ⟨r, hr, -⟩ := occurs_iff.1 hv
      have hlast := (lookup_isSome_iff_mem (answers c) name).2 ⟨r, hr⟩
      rw [firstValue, Option.isSome_map, firstAnswer, List.flatMap_append, List.lookup_append,
        List.flatMap_singleton, Option.isSome_or, hlast, Bool.or_true]
    · obtain ⟨r, hr, rfl⟩ := Option.map_eq_some_iff.1 hv
      exact h name r hr

/-- After a sequence of successful calls, `m_MapRes` is that of the last call if and only if, for
    every column, the first value that earlier calls returned is one that the last call returned,
    up to its first NUL; and where no earlier call returned one, the first value of the last
    call is. -/
theorem ofLastCall_iff {cs : List SqlCall} {c : SqlCall} (hcs : ∀ c' ∈ cs ++ [c], c'.Successful) :
    (∃ m, run init (cs ++ [c]) = .ok m ∧ OfLastCall c m) ↔
      (∀ name r, firstAnswer cs name = some r → c.Occurs name (rowText r)) ∧
        ∀ name r, firstAnswer cs name = none → firstAnswer [c] name = some r →
          c.Occurs name (rowText r) := by
  rw [run_init hcs]
  have hmap : (∃ m, Except.ok (firstValue (cs ++ [c])) = Except.ok (ε := Unit) m ∧
      OfLastCall c m) ↔ OfLastCall c (firstValue (cs ++ [c])) := by
    constructor
    · rintro ⟨m, he, hm⟩
      obtain rfl := Except.ok.inj he
      exact hm
    · exact fun hm => ⟨_, rfl, hm⟩
  rw [hmap, ofLastCall_firstValue_iff]
  constructor
  · refine fun h => ⟨fun name r hr => h name r ?_, fun name r hnone hr => h name r ?_⟩
    · rw [firstAnswer_append, hr, Option.some_or]
    · rw [firstAnswer_append, hnone, Option.none_or, hr]
  · rintro ⟨hold, hnew⟩ name r hr
    rw [firstAnswer_append] at hr
    cases hfirst : firstAnswer cs name with
    | none =>
      rw [hfirst, Option.none_or] at hr
      exact hnew name r hfirst hr
    | some r' =>
      rw [hfirst, Option.some_or] at hr
      exact hold name r (hfirst.trans hr)

/-- A query whose answer is one row with one field. -/
def selectOne (name v : String) : SqlCall where
  query := 0
  ping := 0
  retry := 0
  result := some ⟨1, fun _ => ascii name, [fun _ => some (ascii v)]⟩
  nextResults := []

theorem successful_selectOne (name v : String) : (selectOne name v).Successful := .inl rfl

/-- The same row is selected twice. -/
theorem ofLastCall_twice :
    ∃ m, run init [selectOne "id" "1", selectOne "id" "1"] = .ok m ∧
      OfLastCall (selectOne "id" "1") m := by
  have hsucc : ∀ c ∈ [selectOne "id" "1"] ++ [selectOne "id" "1"], c.Successful := by
    intro c hc
    have hc' : c = selectOne "id" "1" := by simpa using hc
    rw [hc']
    exact successful_selectOne "id" "1"
  have hocc : ∀ name r, firstAnswer [selectOne "id" "1"] name = some r →
      (selectOne "id" "1").Occurs name (rowText r) := by
    intro name r hr
    have hmem := mem_of_lookup hr
    rw [List.flatMap_singleton] at hmem
    obtain ⟨rfl, rfl⟩ := Prod.mk.inj (List.mem_singleton.1 hmem)
    exact occurs_iff.2 ⟨some (ascii "1"), List.mem_singleton_self _, rfl⟩
  exact (ofLastCall_iff hsucc).2 ⟨hocc, fun name r _ hr => hocc name r hr⟩

/-- Two rows are selected, one after the other: the map still has the first. -/
theorem not_ofLastCall :
    ¬∃ m, run init [selectOne "id" "1", selectOne "id" "2"] = .ok m ∧
      OfLastCall (selectOne "id" "2") m := by
  rintro ⟨m, he, hm⟩
  have hcs : ∀ c ∈ [selectOne "id" "1", selectOne "id" "2"], c.Successful := by
    rintro c hc
    rcases List.mem_pair.1 hc with rfl | rfl
    · exact successful_selectOne "id" "1"
    · exact successful_selectOne "id" "2"
  rw [run_init hcs] at he
  obtain rfl := Except.ok.inj he
  obtain ⟨r, hr, hv⟩ := occurs_iff.1 (hm.values (ascii "id") (ascii "1") (by decide))
  obtain ⟨-, rfl⟩ := Prod.mk.inj (List.mem_singleton.1 hr)
  exact absurd hv (by decide)

end MysqlCPP

end VsHttpServer
