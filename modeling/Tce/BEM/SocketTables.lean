import Tce.BEM.GeneratedEncodings

/-!
# The tables of all sockets

The run over the sockets that gives a table to each that needs one. What holds of a
table for the socket it is made for holds for every socket that shares it, because
both have the same ports.
-/

namespace Tce.BEM

section Sharing
variable {socket socket' : Socket} {table : SocketCodeTable}

theorem mem_ports_of_haveEqualConnections (h : haveEqualConnections socket socket' = true) (port : Port) :
    port ∈ socket.ports ↔ port ∈ socket'.ports := by
  simp only [haveEqualConnections, Bool.and_eq_true, List.all_eq_true, decide_eq_true_eq] at h
  exact ⟨h.1 port, h.2 port⟩

theorem portKeys_perm (h : haveEqualConnections socket socket' = true) :
    (socket.ports.flatMap Port.portKeys).Perm (socket'.ports.flatMap Port.portKeys) := by
  apply (List.perm_ext_iff_of_nodup socket.keys_nodup socket'.keys_nodup).mpr
  intro key
  simp only [List.mem_flatMap, mem_ports_of_haveEqualConnections h]

theorem TableOf.share (h : haveEqualConnections socket socket' = true) (ht : TableOf socket' table) :
    TableOf socket table where
  keys := by
    obtain ⟨left, hperm⟩ := ht.keys
    exact ⟨left, hperm.trans (portKeys_perm h).symm⟩
  encodings := ht.encodings
  widths := by
    intro code hcode
    obtain ⟨port, hport, hrest⟩ := ht.widths code hcode
    exact ⟨port, (mem_ports_of_haveEqualConnections h port).mpr hport, hrest⟩

end Sharing

/-- No socket before this one shares its table with it. -/
def NewTable (before : List Socket) (socket : Socket) : Prop :=
  ∀ other ∈ before, needsSocketCodeTable other = true → haveEqualConnections socket other = false

/-- The tables after the sockets of a list: one for each that needs it, of which a property holds. -/
structure Tables (P : Socket → SocketCodeTable → Prop) (sockets : List Socket) (scTableMap : SCTableMap) : Prop where
  owners : scTableMap.map (·.1) = sockets.filter needsSocketCodeTable
  tables : ∀ entry ∈ scTableMap, P entry.1 entry.2
  names : ∀ entry ∈ scTableMap, entry.2.name ∈ sockets.map (·.name)

section Run
variable {P : Socket → SocketCodeTable → Prop} {before sockets : List Socket} {socket : Socket}
  {scTableMap scTableMap' : SCTableMap} {table : SocketCodeTable}

theorem Tables.mem (h : Tables P sockets scTableMap) {entry : Socket × SocketCodeTable} (he : entry ∈ scTableMap) :
    entry.1 ∈ sockets ∧ needsSocketCodeTable entry.1 = true :=
  List.mem_filter.mp (h.owners ▸ List.mem_map_of_mem he)

theorem suitable_some (h : suitableSocketCodeTable scTableMap socket = some table) :
    ∃ other, (other, table) ∈ scTableMap ∧ haveEqualConnections socket other = true := by
  obtain ⟨entry, hfind, rfl⟩ := Option.map_eq_some_iff.mp h
  exact ⟨entry.1, List.mem_of_find?_eq_some hfind, by simpa using List.find?_some hfind⟩

theorem Tables.newTable (h : Tables P before scTableMap) (hnone : suitableSocketCodeTable scTableMap socket = none) :
    NewTable before socket := by
  intro other hmem hneeds
  have hother : other ∈ scTableMap.map (·.1) := h.owners ▸ List.mem_filter.mpr ⟨hmem, hneeds⟩
  obtain ⟨entry, hentry, rfl⟩ := List.mem_map.mp hother
  have hfind := Option.map_eq_none_iff.mp hnone
  simpa using List.find?_eq_none.mp hfind entry hentry

/-- The table of one socket has the property, and a name of its own or one that is used. -/
theorem Tables.tableFor (h : Tables P before scTableMap)
    (hshare : ∀ s s' t, haveEqualConnections s s' = true → P s' t → P s t)
    (hmake : NewTable before socket → ∀ t, addPortCodes ⟨socket.name, [], 0⟩ socket = some t → P socket t)
    (ht : tableFor scTableMap socket = some table) :
    P socket table ∧ table.name ∈ (before ++ [socket]).map (·.name) := by
  unfold BEM.tableFor at ht
  split at ht
  · rename_i suitable hsuitable
    obtain rfl := Option.some.inj ht
    obtain ⟨other, hmem, heq⟩ := suitable_some hsuitable
    refine ⟨hshare _ _ _ heq (h.tables _ hmem), ?_⟩
    rw [List.map_append]
    exact List.mem_append_left _ (h.names _ hmem)
  · rename_i hnone
    split at ht
    · cases ht
    · refine ⟨hmake (h.newTable hnone) table ht, ?_⟩
      simp [(addPortCodes_inv ht).1]

theorem Tables.add (h : Tables P before scTableMap) (hneeds : needsSocketCodeTable socket = true)
    (hP : P socket table) (hname : table.name ∈ (before ++ [socket]).map (·.name)) :
    Tables P (before ++ [socket]) (scTableMap ++ [(socket, table)]) where
  owners := by simp [h.owners, hneeds]
  tables := by
    intro entry hentry
    rcases List.mem_append.mp hentry with hold | hnew
    · exact h.tables entry hold
    · obtain rfl := List.mem_singleton.mp hnew
      exact hP
  names := by
    intro entry hentry
    rcases List.mem_append.mp hentry with hold | hnew
    · rw [List.map_append]
      exact List.mem_append_left _ (h.names entry hold)
    · obtain rfl := List.mem_singleton.mp hnew
      exact hname

theorem Tables.skip (h : Tables P before scTableMap) (hneeds : needsSocketCodeTable socket = false) :
    Tables P (before ++ [socket]) scTableMap where
  owners := by simp [h.owners, hneeds]
  tables := h.tables
  names := by
    intro entry hentry
    rw [List.map_append]
    exact List.mem_append_left _ (h.names entry hentry)

theorem Tables.run (h : Tables P before scTableMap)
    (hshare : ∀ s s' t, haveEqualConnections s s' = true → P s' t → P s t)
    (hmake : ∀ earlier s later, sockets = earlier ++ s :: later → needsSocketCodeTable s = true →
      NewTable (before ++ earlier) s → ∀ t, addPortCodes ⟨s.name, [], 0⟩ s = some t → P s t)
    (hrun : addSocketCodeTables sockets scTableMap = some scTableMap') :
    Tables P (before ++ sockets) scTableMap' := by
  induction sockets generalizing before scTableMap with
  | nil =>
    obtain rfl := Option.some.inj hrun
    simpa using h
  | cons s sockets ih =>
    have htail : ∀ earlier s' later, sockets = earlier ++ s' :: later → needsSocketCodeTable s' = true →
        NewTable (before ++ [s] ++ earlier) s' → ∀ t, addPortCodes ⟨s'.name, [], 0⟩ s' = some t → P s' t := by
      rintro earlier s' later rfl hneeds' hnew
      exact hmake (s :: earlier) s' later rfl hneeds' (by simpa using hnew)
    unfold addSocketCodeTables at hrun
    split at hrun
    · rename_i hneeds
      obtain ⟨table, htable, hrest⟩ := Option.bind_eq_some_iff.mp hrun
      obtain ⟨hP, hname⟩ := h.tableFor hshare (fun hnew => hmake [] s sockets rfl hneeds (by simpa using hnew)) htable
      simpa using ih (h.add hneeds hP hname) htail hrest
    · rename_i hneeds
      simpa using ih (h.skip (by simpa using hneeds)) htail hrun

/-- Every socket for which a table is made has to be codable for the run to succeed. -/
theorem addSocketCodeTables_eq_some (h : Tables P before scTableMap)
    (hshare : ∀ s s' t, haveEqualConnections s s' = true → P s' t → P s t)
    (hnames : ((before ++ sockets).map (·.name)).Nodup)
    (hcodable : ∀ earlier s later, sockets = earlier ++ s :: later → needsSocketCodeTable s = true →
      NewTable (before ++ earlier) s → ∃ t, addPortCodes ⟨s.name, [], 0⟩ s = some t)
    (hmake : ∀ earlier s later, sockets = earlier ++ s :: later → needsSocketCodeTable s = true →
      NewTable (before ++ earlier) s → ∀ t, addPortCodes ⟨s.name, [], 0⟩ s = some t → P s t) :
    ∃ scTableMap', addSocketCodeTables sockets scTableMap = some scTableMap' := by
  induction sockets generalizing before scTableMap with
  | nil => exact ⟨_, rfl⟩
  | cons s sockets ih =>
    have hnames' : ((before ++ [s] ++ sockets).map (·.name)).Nodup := by simpa using hnames
    have hmake' : ∀ earlier s' later, sockets = earlier ++ s' :: later → needsSocketCodeTable s' = true →
        NewTable (before ++ [s] ++ earlier) s' → ∀ t, addPortCodes ⟨s'.name, [], 0⟩ s' = some t → P s' t := by
      rintro earlier s' later rfl hneeds' hnew
      exact hmake (s :: earlier) s' later rfl hneeds' (by simpa using hnew)
    have hcodable' : ∀ earlier s' later, sockets = earlier ++ s' :: later → needsSocketCodeTable s' = true →
        NewTable (before ++ [s] ++ earlier) s' → ∃ t, addPortCodes ⟨s'.name, [], 0⟩ s' = some t := by
      rintro earlier s' later rfl hneeds hnew
      exact hcodable (s :: earlier) s' later rfl hneeds (by simpa using hnew)
    by_cases hneeds : needsSocketCodeTable s = true
    · have htable : ∃ table, tableFor scTableMap s = some table := by
        unfold tableFor
        split
        · exact ⟨_, rfl⟩
        · rename_i hnone
          have hfresh : scTableMap.any (·.2.name = s.name) = false := by
            apply List.any_eq_false.mpr
            intro entry hentry
            have hin := h.names entry hentry
            rw [List.map_append, List.map_cons] at hnames
            have := (List.nodup_append.mp hnames).2.2 _ hin s.name List.mem_cons_self
            simpa using this
          obtain ⟨t, ht⟩ := hcodable [] s sockets rfl hneeds (by simpa using h.newTable hnone)
          exact ⟨t, by simp [hfresh, ht]⟩
      obtain ⟨table, htable⟩ := htable
      obtain ⟨hP, hname⟩ := h.tableFor hshare (fun hnew => hmake [] s sockets rfl hneeds (by simpa using hnew)) htable
      obtain ⟨map', hmap'⟩ := ih (h.add hneeds hP hname) hnames' hcodable' hmake'
      exact ⟨map', by simp [addSocketCodeTables, hneeds, htable, hmap']⟩
    · obtain ⟨map', hmap'⟩ := ih (h.skip (by simpa using hneeds)) hnames' hcodable' hmake'
      exact ⟨map', by simp [addSocketCodeTables, hneeds, hmap']⟩

end Run

section Lookup
variable {P : Socket → SocketCodeTable → Prop} {sockets : List Socket} {socket : Socket} {scTableMap : SCTableMap}
  {table : SocketCodeTable}

theorem mem_of_socketCodeTable (h : socketCodeTable scTableMap socket = some table) : (socket, table) ∈ scTableMap := by
  obtain ⟨before, after, rfl, _⟩ := List.lookup_eq_some_iff.mp h
  simp

/-- A socket has a table just when it needs one. -/
theorem Tables.socketCodeTable_isSome (h : Tables P sockets scTableMap) (hs : socket ∈ sockets) :
    (socketCodeTable scTableMap socket).isSome = needsSocketCodeTable socket := by
  cases hlookup : socketCodeTable scTableMap socket with
  | some table =>
    have := (h.mem (mem_of_socketCodeTable hlookup)).2
    simp [this]
  | none =>
    have hnone := List.lookup_eq_none_iff.mp hlookup
    rw [Option.isSome_none, eq_comm, Bool.eq_false_iff]
    intro hneeds
    have hmem : socket ∈ scTableMap.map (·.1) := h.owners ▸ List.mem_filter.mpr ⟨hs, hneeds⟩
    obtain ⟨entry, hentry, rfl⟩ := List.mem_map.mp hmem
    simpa using hnone entry hentry

end Lookup

end Tce.BEM
