import LedgerHistory.Proofs.Aggregate.Renaming
import LedgerHistory.Proofs.Recording.Reaches

/-!
# States that record the same history

A history, with the directory, determines the rows of all tables but for their ids: two states that
record it have the same rows in the same order, under ids that grow alike
(`Snapshot.Records.exists_renaming`).
-/

namespace LedgerHistory

/-- Other ids for the rows of each table. -/
abbrev Renaming := String → Int64 → Int64

/-- The other ids for the tables of a domain. -/
def Renaming.newIds (ρ : Renaming) (d : ListDomain) : NewIds where
  entry := ρ d.entryTable.name
  aggregate := ρ d.aggregateSchema.table.name
  singleton := (d.singletonTable.map (ρ ·.table.name)).getD id

/-- Whether a state has the directory of another one and, table by table, its rows in the same order
under other ids. These grow with the ids in their place, and are the same for rows that stood in an
older state already. -/
structure Snapshot.Renames (ρ : Renaming) (old s s' : Snapshot) : Prop where
  entities : s'.entities = s.entities
  fixed (name : String) : ∀ id ∈ (old.table name).ids, ρ name id = id
  increasing (name : String) : ∀ i ∈ (s.table name).ids, ∀ j ∈ (s.table name).ids,
    i < j → ρ name i < ρ name j
  lists (k : ListKind) : ∃ C, s.Holds k C ∧ s'.Holds k (C.rename (ρ.newIds k.domain))
  plain (k : PlainKind) : ∃ xs : List (HistoryRow k.domain.Change),
    s.rows k.domain.table.name = xs.map k.domain.encode
    ∧ s'.rows k.domain.table.name = (xs.map (·.rename (ρ k.domain.table.name))).map k.domain.encode
  others {name : String} (hn : ∀ d : DomainName, ∀ t ∈ d.tables, t.name ≠ name) :
    s'.rows name = s.rows name

/-! ## Tables -/

/-- A table is one of the tables of some domain or of none. -/
theorem DomainName.table_cases (name : String) :
    (∃ k : ListKind, k.domain.entryTable.name = name)
      ∨ (∃ k : ListKind, k.domain.aggregateSchema.table.name = name)
      ∨ (∃ (k : ListKind) (t : SingletonTable k.domain.Singleton),
        k.domain.singletonTable = some t ∧ t.table.name = name)
      ∨ (∃ k : PlainKind, k.domain.table.name = name)
      ∨ ∀ d : DomainName, ∀ t ∈ d.tables, t.name ≠ name := by
  by_cases hn : ∀ d : DomainName, ∀ t ∈ d.tables, t.name ≠ name
  · exact .inr (.inr (.inr (.inr hn)))
  · push Not at hn
    obtain ⟨d, t, ht, rfl⟩ := hn
    rcases d.eq_name with ⟨k, rfl⟩ | ⟨k, rfl⟩
    · rw [k.tables_name, ListDomain.tables, List.mem_append, List.mem_pair] at ht
      rcases ht with (rfl | rfl) | ht
      · exact .inl ⟨k, rfl⟩
      · exact .inr (.inl ⟨k, rfl⟩)
      · rw [Option.mem_toList, Option.map_eq_some_iff] at ht
        obtain ⟨t, ht, rfl⟩ := ht
        exact .inr (.inr (.inl ⟨k, t, ht, rfl⟩))
    · have htable : k.domain.name.tables = [k.domain.table] := by cases k <;> rfl
      rw [htable, List.mem_singleton] at ht
      exact .inr (.inr (.inr (.inl ⟨k, ht ▸ rfl⟩)))

/-! ## One history, two states -/

section Records

variable {h : History} {s s' : Snapshot} {C C' : Chronicles} {H H' : Histories}

theorem Snapshot.Records.tells_of_entities (hr : s.Records h C H) (he : s.entities = s'.entities)
    (k : ListKind) : (C k).Tells ((h.groups s'.number k).map k.rereadGroup) := by
  rw [← Snapshot.number_congr he]
  exact hr.tells k

variable (hs : s.Keyed) (hs' : s'.Keyed) (hr : s.Records h C H) (hr' : s'.Records h C' H')
  (he : s'.entities = s.entities)

include hr hr' he

theorem Snapshot.Records.plainTells_same (k : PlainKind) :
    (H k).map (fun x => (x.groupKey, x.change)) = (H' k).map fun x => (x.groupKey, x.change) := by
  rw [hr.plainTells k, hr'.plainTells k, Snapshot.number_congr he]

include hs hs'

/-- Two states that record one history have as many ids in each table, in order. -/
theorem Snapshot.Records.ids_alike (name : String) :
    (s.table name).ids.Pairwise (· < ·) ∧ (s'.table name).ids.Pairwise (· < ·)
      ∧ (s.table name).ids.length = (s'.table name).ids.length := by
  have halike : ∀ {α β : Type} {xs ys : List α} {encode : α → Row} {id : α → Int64} {f : α → β},
      (∀ x, Row.at (encode x) 0 = .int8 (id x)) → s.rows name = xs.map encode →
      s'.rows name = ys.map encode → (xs.map id).Pairwise (· < ·) → (ys.map id).Pairwise (· < ·) →
      xs.map f = ys.map f → (s.table name).ids.Pairwise (· < ·)
        ∧ (s'.table name).ids.Pairwise (· < ·)
        ∧ (s.table name).ids.length = (s'.table name).ids.length := by
    intro α β xs ys encode id f hat hx hy hxs hys hf
    rw [hs.ids_eq id hat hx, hs'.ids_eq id hat hy, List.length_map, List.length_map]
    exact ⟨hxs, hys, by simpa using congrArg List.length hf⟩
  have htells := hr'.tells_of_entities he
  rcases DomainName.table_cases name with
    ⟨k, rfl⟩ | ⟨k, rfl⟩ | ⟨k, t, ht, rfl⟩ | ⟨k, rfl⟩ | hn
  · exact halike k.at_encodeEntry (hr.holds k).entries (hr'.holds k).entries
      (hr.consistent k).ordered.entries.increasing (hr'.consistent k).ordered.entries.increasing
      ((hr.tells k).entries.trans (htells k).entries.symm)
  · exact halike (fun _ => rfl) (hr.holds k).aggregates (hr'.holds k).aggregates
      (hr.consistent k).ordered.aggregates.increasing
      (hr'.consistent k).ordered.aggregates.increasing
      ((hr.tells k).aggregates.trans (htells k).aggregates.symm)
  · exact halike (ListKind.at_encodeSingleton ht) ((hr.holds k).singletons ht)
      ((hr'.holds k).singletons ht) (hr.consistent k).ordered.singletons.increasing
      (hr'.consistent k).ordered.singletons.increasing
      ((hr.tells k).singletons.trans (htells k).singletons.symm)
  · exact halike k.at_encode (hr.plain k) (hr'.plain k) (List.pairwise_map.2 (hr.increasing k))
      (List.pairwise_map.2 (hr'.increasing k)) (hr.plainTells_same hr' he k)
  · rw [hs.ids_eq_nil (hr.others hn), hs'.ids_eq_nil (hr'.others hn)]
    exact ⟨.nil, .nil, rfl⟩

/-- What a history, with the directory, leaves open are the ids. -/
theorem Snapshot.Records.exists_renaming {old : Snapshot}
    (ho : ∀ name, (old.table name).ids <+: (s.table name).ids)
    (ho' : ∀ name, (old.table name).ids <+: (s'.table name).ids) :
    ∃ ρ, Snapshot.Renames ρ old s s' := by
  let ρ : Renaming := fun name => counterpart (s.table name).ids (s'.table name).ids
  have hids := hr.ids_alike hs hs' hr' he
  have hmap : ∀ name, (s.table name).ids.map (ρ name) = (s'.table name).ids := fun name =>
    map_counterpart (hids name).1 (hids name).2.2
  have hrename : ∀ {α : Type} {name : String} {xs ys : List α} {encode : α → Row} {id : α → Int64},
      (∀ x, Row.at (encode x) 0 = .int8 (id x)) → s.rows name = xs.map encode →
      s'.rows name = ys.map encode → (xs.map id).map (ρ name) = ys.map id := by
    intro α name xs ys encode id hat hx hy
    rw [← hs.ids_eq id hat hx, ← hs'.ids_eq id hat hy, hmap]
  refine ⟨ρ, he, fun name id hid => counterpart_of_prefix (ho name) (ho' name) hid,
    fun name i hi j hj => ?_, fun k => ?_, fun k => ?_, fun hn => ?_⟩
  · obtain ⟨hinc, hinc', hlen⟩ := hids name
    exact counterpart_lt hinc hinc' hlen hi hj
  · have hheld := hr.holds k
    have hheld' := hr'.holds k
    have heq : C' k = (C k).rename (ρ.newIds k.domain) := by
      refine (hr.consistent k).eq_rename (hr'.consistent k) (hr.tells k)
        (hr'.tells_of_entities he k)
        (hrename k.at_encodeEntry hheld.entries hheld'.entries)
        (hrename (fun _ => rfl) hheld.aggregates hheld'.aggregates) ?_
      rcases ht : k.domain.singletonTable with _ | t
      · rw [ListKind.singletons_eq_nil ht (C k).singletons,
          ListKind.singletons_eq_nil ht (C' k).singletons]
        rfl
      · have hnew : (ρ.newIds k.domain).singleton = ρ t.table.name := by
          simp [Renaming.newIds, ht]
        rw [hnew]
        exact hrename (ListKind.at_encodeSingleton ht) (hheld.singletons ht) (hheld'.singletons ht)
    exact ⟨C k, hheld, heq ▸ hheld'⟩
  · have heq : H' k = (H k).map (·.rename (ρ k.domain.table.name)) :=
      eq_map_rename (hr.plainTells_same hr' he k) (hrename k.at_encode (hr.plain k) (hr'.plain k))
    exact ⟨H k, hr.plain k, heq ▸ hr'.plain k⟩
  · rw [hr.others hn, hr'.others hn]

end Records

end LedgerHistory
