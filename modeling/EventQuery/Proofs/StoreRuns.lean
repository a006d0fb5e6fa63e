import EventQuery.Proofs.RegistryRuns
import EventQuery.Schema.Store

/-!
# Runs of a field store

`Store.Refines` relates a store, with its tables and its counter, to the
registry it stands for. The empty store refines the empty registry, a
request has the same outcome on both sides, and it keeps them related as
long as the counter has not wrapped (`Refines.after`). So a run of fewer
than `2 ^ 32` fields is a run of a registry (`Refines.run`), and a store
answers every question as its registry does.

A call that fails has written nothing (`after_of_error`). This needs no
relation: it holds of any store.
-/

namespace EventQuery

namespace Store

open Registry (Request)

/-! ## Requests -/

def perform : Request → Call UInt32
  | .addField d => register d
  | .addAlias name target => registerAlias name target

/-- What a request is answered. -/
def reply (s : Store) (q : Request) : Except SchemaError UInt32 := ((perform q).run.run s).1

/-- The store after a request. -/
def after (s : Store) (q : Request) : Store := ((perform q).run.run s).2

/-- The store after some requests. -/
def run (s : Store) (qs : List Request) : Store := qs.foldl after s

/-- The definition that a request adds, with the id it is answered. -/
def accepted? (s : Store) : Request → Option (UInt32 × FieldDef)
  | .addField d => (s.reply (.addField d)).toOption.map fun id => (id, d)
  | .addAlias .. => none

/-- The definitions that a run adds, with their ids. -/
def accepted (s : Store) : List Request → List (UInt32 × FieldDef)
  | [] => []
  | q :: qs => (s.accepted? q).toList ++ (s.after q).accepted qs

theorem run_append (s : Store) (qs qs' : List Request) :
    s.run (qs ++ qs') = (s.run qs).run qs' :=
  List.foldl_append

theorem accepted_append (s : Store) (qs qs' : List Request) :
    s.accepted (qs ++ qs') = s.accepted qs ++ (s.run qs).accepted qs' := by
  induction qs generalizing s with
  | nil => rfl
  | cons q qs ih =>
      rw [List.cons_append, accepted, accepted, ih, List.append_assoc]
      rfl

/-! ## What a call does -/

theorem run_get_bind {α : Type} (f : Store → Call α) (s : Store) :
    (get >>= f : Call α).run.run s = (f s).run.run s := rfl

theorem run_bind_of_ok {α β : Type} {call : Call α} {s s' : Store} {a : α}
    (h : call.run.run s = (.ok a, s')) (next : α → Call β) :
    (call >>= next).run.run s = (next a).run.run s' := by
  rw [ExceptT.run_bind, StateT.run_bind, h]
  rfl

theorem run_bind_of_error {α β : Type} {call : Call α} {s s' : Store} {x : SchemaError}
    (h : call.run.run s = (.error x, s')) (next : α → Call β) :
    (call >>= next).run.run s = (.error x, s') := by
  rw [ExceptT.run_bind, StateT.run_bind, h]
  rfl

theorem run_register (s : Store) (d : FieldDef) : (register d).run.run s =
    if s.paths.contains d.path then (.error (.fieldExists d.path), s)
    else (.ok s.nextId, { s with
      fields := s.fields.insert s.nextId d.withColumn
      paths := s.paths.insert d.path s.nextId
      nextId := s.nextId + 1 }) := by
  rw [register, Registry.path_withColumn, run_get_bind]
  split <;> rfl

theorem run_registerAlias (s : Store) (name target : String) :
    (registerAlias name target).run.run s =
      match s.id? target with
      | none => (.error (.aliasTargetNotFound name target), s)
      | some id =>
        if s.paths.contains name then (.error (.fieldExists name), s)
        else (.ok id, { s with
          paths := s.paths.insert name id
          aliases := s.aliases.insert name id }) := by
  rw [registerAlias, run_get_bind]
  cases s.id? target with
  | none => rfl
  | some id =>
      simp only [run_get_bind]
      split <;> rfl

/-- A request fails and writes nothing, or it succeeds. -/
theorem perform_cases (s : Store) (q : Request) :
    (∃ x, (perform q).run.run s = (.error x, s)) ∨ ∃ id, s.reply q = .ok id := by
  cases q with
  | addField d =>
      rw [reply, perform, run_register]
      split
      · exact .inl ⟨_, rfl⟩
      · exact .inr ⟨_, rfl⟩
  | addAlias name target =>
      rw [reply, perform, run_registerAlias]
      split
      · exact .inl ⟨_, rfl⟩
      · split
        · exact .inl ⟨_, rfl⟩
        · exact .inr ⟨_, rfl⟩

/-- A call that fails leaves the whole state as it was. -/
theorem after_of_error {s : Store} {q : Request} {x : SchemaError} (h : s.reply q = .error x) :
    s.after q = s := by
  rcases s.perform_cases q with ⟨_, herror⟩ | ⟨id, hok⟩
  · rw [after, herror]
  · rw [hok] at h
    cases h

theorem accepted?_of_error {s : Store} {q : Request} {x : SchemaError}
    (h : s.reply q = .error x) : s.accepted? q = none := by
  cases q with
  | addField d =>
      rw [accepted?, h]
      rfl
  | addAlias => rfl

/-- A request that fails might as well not have been made. -/
theorem run_of_error {s : Store} {q : Request} {x : SchemaError} {past : List Request}
    (h : (s.run past).reply q = .error x) (later : List Request) :
    s.run (past ++ q :: later) = s.run (past ++ later) ∧
      s.accepted (past ++ q :: later) = s.accepted (past ++ later) := by
  have hafter := after_of_error h
  constructor
  · rw [run_append, run_append]
    exact congrArg (Store.run · later) hafter
  · rw [accepted_append, accepted_append, accepted, accepted?_of_error h, hafter]
    rfl

/-- A definition is taken if its path is new. -/
theorem reply_addField_isOk_iff {s : Store} {d : FieldDef} :
    (∃ id, s.reply (.addField d) = .ok id) ↔ s.id? d.path = none := by
  rw [reply, perform, run_register, Table.contains]
  change _ ↔ s.paths.get? d.path = none
  cases s.paths.get? d.path <;> simp

/-- A definition is taken under the next id. -/
theorem eq_nextId_of_reply {s : Store} {d : FieldDef} {id : UInt32}
    (h : s.reply (.addField d) = .ok id) : id = s.nextId := by
  rw [reply, perform, run_register] at h
  split at h
  · cases h
  · exact (Except.ok.inj h).symm

/-- An alias is taken if its name is new and its target is known. -/
theorem reply_addAlias_eq_ok_iff {s : Store} {name target : String} {id : UInt32} :
    s.reply (.addAlias name target) = .ok id ↔ s.id? name = none ∧ s.id? target = some id := by
  rw [reply, perform, run_registerAlias, Table.contains]
  change _ ↔ s.paths.get? name = none ∧ _
  cases s.id? target with
  | none => simp
  | some found => cases s.paths.get? name <;> simp

theorem sorted_list (s : Store) : s.list.Pairwise fun a b => a.1 ≤ b.1 := by
  refine (List.pairwise_mergeSort ?_ ?_ _).imp of_decide_eq_true
  · intro a b c hab hbc
    exact decide_eq_true (UInt32.le_trans (of_decide_eq_true hab) (of_decide_eq_true hbc))
  · intro a b
    simpa using UInt32.le_total a.1 b.1

/-! ## Refinement -/

/-- A store stands for a registry: its tables hold what the registry says,
and its counter is one ahead of the fields. -/
structure Refines (s : Store) (r : Registry) : Prop where
  room : r.size < UInt32.size
  nextId : s.nextId = UInt32.ofNat (r.size + 1)
  fields : ∀ id : UInt32, s.fields.get? id = r.field? id.toNat
  paths : ∀ name, s.paths.get? name = (r.names.lookup name).map fun e => UInt32.ofNat e.id
  aliases : ∀ name, s.aliases.get? name =
    ((r.names.lookup name).filter NameEntry.isAlias).map fun e => UInt32.ofNat e.id

namespace Refines

variable {s : Store} {r : Registry}

theorem empty : Store.empty.Refines .empty where
  room := by decide
  nextId := rfl
  fields id := by
    rw [Registry.field?]
    split <;> rfl
  paths _ := rfl
  aliases _ := rfl

theorem id? (h : s.Refines r) (name : String) :
    s.id? name = (r.id? name).map UInt32.ofNat := by
  rw [Store.id?, h.paths, Registry.id?, Option.map_map]
  rfl

theorem contains (h : s.Refines r) (name : String) :
    s.paths.contains name = (r.id? name).isSome := by
  rw [Table.contains, h.paths, Registry.id?, Option.isSome_map, Option.isSome_map]

/-- A request is answered as the registry answers it. -/
theorem reply (h : s.Refines r) (q : Request) :
    s.reply q = (r.answer q).map fun p => UInt32.ofNat p.1 := by
  cases q with
  | addField d =>
      rw [Store.reply, perform, run_register, h.contains, Registry.answer, Registry.register]
      cases r.id? d.path with
      | some taken => rfl
      | none => exact congrArg Except.ok h.nextId
  | addAlias name target =>
      rw [Store.reply, perform, run_registerAlias, h.contains, h.id?, Registry.answer,
        Registry.registerAlias]
      cases r.id? target with
      | none => rfl
      | some id =>
          cases r.id? name with
          | some taken => rfl
          | none => rfl

theorem of_reply_eq_ok (h : s.Refines r) {q : Request} {id : UInt32} (hq : s.reply q = .ok id) :
    ∃ n r', r.answer q = .ok (n, r') ∧ id = UInt32.ofNat n := by
  rw [h.reply] at hq
  cases hanswer : r.answer q with
  | error x =>
      rw [hanswer] at hq
      cases hq
  | ok p =>
      rw [hanswer] at hq
      exact ⟨p.1, p.2, rfl, (Except.ok.inj hq).symm⟩

/-- One more field. The id it is given is new because the counter has not
wrapped. -/
theorem addField (h : s.Refines r) {d : FieldDef} (hname : r.id? d.path = none)
    (hroom : r.size + 1 < UInt32.size) :
    Refines { s with
        fields := s.fields.insert s.nextId d.withColumn
        paths := s.paths.insert d.path s.nextId
        nextId := s.nextId + 1 }
      ⟨r.fields ++ [d.withColumn], r.names ++ [(d.path, ⟨r.size + 1, false⟩)]⟩ := by
  have hid : s.nextId.toNat = r.size + 1 := by
    rw [h.nextId, UInt32.toNat_ofNat', Nat.mod_eq_of_lt hroom]
  constructor
  · simpa [Registry.size] using hroom
  · change s.nextId + 1 = UInt32.ofNat ((r.fields ++ [d.withColumn]).length + 1)
    rw [h.nextId, List.length_append]
    exact (UInt32.ofNat_add _ _).symm
  · intro id
    rw [Table.get?_insert, Registry.field?_append, h.fields, ← hid]
    simp only [UInt32.toNat_inj]
  · intro name
    rw [Table.get?_insert, Registry.lookup_append hname, h.paths, h.nextId]
    split <;> rfl
  · intro name
    rw [Registry.lookup_append hname, h.aliases]
    split
    · rename_i same
      rw [same, Registry.lookup_eq_none hname]
      rfl
    · rfl

/-- One more alias. -/
theorem addAlias (h : s.Refines r) {name : String} {id : Nat} (hname : r.id? name = none) :
    Refines { s with
        paths := s.paths.insert name (UInt32.ofNat id)
        aliases := s.aliases.insert name (UInt32.ofNat id) }
      { r with names := r.names ++ [(name, ⟨id, true⟩)] } where
  room := h.room
  nextId := h.nextId
  fields := h.fields
  paths other := by
    rw [Table.get?_insert, Registry.lookup_append hname, h.paths]
    split <;> rfl
  aliases other := by
    rw [Table.get?_insert, Registry.lookup_append hname, h.aliases]
    split <;> rfl

/-- A request keeps a store and its registry related. -/
theorem after (h : s.Refines r) (q : Request) (hroom : (r.after q).size < UInt32.size) :
    (s.after q).Refines (r.after q) := by
  cases hanswer : r.answer q with
  | error x =>
      have hreply : s.reply q = .error x := by rw [h.reply, hanswer]; rfl
      rwa [after_of_error hreply, Registry.after_of_error hanswer]
  | ok p =>
      obtain ⟨id, r'⟩ := p
      rw [Registry.after_of_ok hanswer] at hroom ⊢
      rcases Registry.answer_cases hanswer with
        ⟨d, rfl, hname, -, rfl⟩ | ⟨name, target, rfl, hname, htarget, rfl⟩
      · rw [Store.after, perform, run_register, h.contains, hname]
        refine h.addField hname ?_
        simpa [Registry.size] using hroom
      · rw [Store.after, perform, run_registerAlias, h.contains, h.id?, hname, htarget]
        exact h.addAlias hname

theorem accepted? (h : s.Refines r) (q : Request) :
    s.accepted? q = (r.accepted? q).map (Prod.map UInt32.ofNat id) := by
  cases q with
  | addField d =>
      rw [Store.accepted?, h.reply, Registry.answer, Registry.accepted?]
      cases r.register d <;> rfl
  | addAlias => rfl

/-- A run of a store is a run of its registry, if there is room for the
fields it adds. -/
theorem run (h : s.Refines r) (qs : List Request)
    (hroom : r.size + (s.accepted qs).length < UInt32.size) :
    (s.run qs).Refines (r.run qs) ∧
      s.accepted qs = (r.accepted qs).map (Prod.map UInt32.ofNat id) := by
  induction qs generalizing s r with
  | nil => exact ⟨h, rfl⟩
  | cons q qs ih =>
      have hsize : (r.after q).size = r.size + (s.accepted? q).toList.length := by
        rw [Registry.size_after, h.accepted?]
        cases r.accepted? q <;> rfl
      rw [accepted, List.length_append, ← Nat.add_assoc, ← hsize] at hroom
      obtain ⟨hrun, haccepted⟩ := ih (h.after q (by omega)) hroom
      refine ⟨hrun, ?_⟩
      rw [accepted, Registry.accepted, haccepted, h.accepted?, List.map_append]
      cases r.accepted? q <;> rfl

/-! ## Look-ups -/

/-- The id of a definition fits a word. -/
theorem toNat_ofNat (h : s.Refines r) {id : Nat} {d : FieldDef} (hd : r.field? id = some d) :
    (UInt32.ofNat id).toNat = id := by
  rw [UInt32.toNat_ofNat']
  exact Nat.mod_eq_of_lt (Nat.lt_of_le_of_lt (Registry.le_size_of_field? hd) h.room)

theorem get? (h : s.Refines r) (hr : r.Sound) (name : String) : s.get? name = r.get? name := by
  rw [Store.get?, h.id?, Registry.get?]
  cases hid : r.id? name with
  | none => rfl
  | some id =>
      obtain ⟨d, hd, -⟩ := hr.field?_of_id? hid
      change s.fields.get? (UInt32.ofNat id) = r.field? id
      rw [h.fields, h.toNat_ofNat hd]

theorem resolve (h : s.Refines r) (hr : r.Sound) (name : String) :
    s.resolve name = r.resolve name := by
  rewrite [Store.resolve, Registry.resolve, h.get? hr]
  rfl

theorem isAlias (h : s.Refines r) (name : String) : s.isAlias name = r.isAlias name := by
  rw [Store.isAlias, Table.contains, h.aliases, Option.isSome_map, Registry.isAlias]
  cases r.names.lookup name with
  | none => rfl
  | some entry => cases hentry : entry.isAlias <;> simp [Option.filter, hentry]

/-- Fields are named alike. -/
theorem namer (h : s.Refines r) (hr : r.Sound) : s.namer = r.namer := by
  funext name
  rewrite [Store.namer, Registry.namer, h.resolve hr]
  rfl

/-! ## The listing -/

/-- Below `2 ^ 32` the ids of a registry keep their order as words. -/
theorem sorted_list (h : s.Refines r) :
    (r.list.map (Prod.map UInt32.ofNat id)).Pairwise fun a b => a.1 < b.1 := by
  have hids : (r.list.map Prod.fst).Pairwise (· < ·) := by
    rw [Registry.list_ids]
    exact List.pairwise_lt_range'
  refine List.pairwise_map.mpr ((List.pairwise_map.mp hids).imp_of_mem ?_)
  rintro ⟨i, d⟩ ⟨j, d'⟩ hi hj hlt
  rw [UInt32.lt_iff_toNat_lt, Prod.map_fst, Prod.map_fst,
    h.toNat_ofNat (Registry.mem_list_iff.mp hi), h.toNat_ofNat (Registry.mem_list_iff.mp hj)]
  exact hlt

theorem mem_entries_iff (h : s.Refines r) (p : UInt32 × FieldDef) :
    p ∈ s.fields.entries ↔ p ∈ r.list.map (Prod.map UInt32.ofNat id) := by
  obtain ⟨i, d⟩ := p
  rw [Table.mem_entries_iff, h.fields, ← Registry.mem_list_iff, List.mem_map]
  constructor
  · exact fun hmem => ⟨_, hmem, Prod.ext UInt32.ofNat_toNat rfl⟩
  · rintro ⟨⟨n, d'⟩, hmem, heq⟩
    obtain ⟨rfl, rfl⟩ := Prod.mk.inj heq
    rwa [h.toNat_ofNat (Registry.mem_list_iff.mp hmem)]

/-- Sorted by id, the definitions are listed in the order they came. -/
theorem list (h : s.Refines r) : s.list = r.list.map (Prod.map UInt32.ofNat id) := by
  have hsorted := h.sorted_list
  have hentries : s.fields.entries.Nodup :=
    List.Pairwise.of_map Prod.fst (fun _ _ hne heq => hne (congrArg Prod.fst heq)) s.fields.nodup
  have hlist : (r.list.map (Prod.map UInt32.ofNat id)).Nodup := by
    refine hsorted.imp ?_
    rintro a _ hlt rfl
    exact UInt32.lt_irrefl _ hlt
  have hperm : s.list.Perm (r.list.map (Prod.map UInt32.ofNat id)) :=
    (List.mergeSort_perm _ _).trans
      ((List.perm_ext_iff_of_nodup hentries hlist).mpr h.mem_entries_iff)
  refine hperm.eq_of_pairwise ?_ s.sorted_list (hsorted.imp UInt32.le_of_lt)
  rintro ⟨i, d⟩ ⟨j, d'⟩ hi hj hij hji
  obtain rfl : i = j := UInt32.le_antisymm hij hji
  have hd := Table.mem_entries_iff.mp (List.mem_mergeSort.mp hi)
  have hd' := Table.mem_entries_iff.mp ((h.mem_entries_iff _).mpr hj)
  rw [Option.some.inj (hd.symm.trans hd')]

theorem size (h : s.Refines r) : s.size = r.size := by
  have hlength := congrArg List.length h.list
  rwa [Store.list, List.length_mergeSort, List.length_map, Registry.length_list] at hlength

end Refines

/-! ## Stores that are built -/

/-- Take requests until one fails. -/
def takeAll (qs : List Request) : Call Unit := forM qs fun q => discard (perform q)

theorem registerAll_eq_takeAll (fields : List FieldDef) (aliases : List (String × String)) :
    registerAll fields aliases =
      takeAll (fields.map .addField ++ aliases.map fun a => .addAlias a.1 a.2) := by
  rw [takeAll, List.forM_append, List.forM_map, List.forM_map]
  rfl

theorem takeAll_cons (q : Request) (qs : List Request) :
    takeAll (q :: qs) = perform q >>= fun _ => takeAll qs := by
  have hdiscard : (discard (perform q) : Call Unit) = perform q >>= fun _ => pure () := by
    rw [discard, LawfulFunctor.map_const]
    exact map_eq_pure_bind _ _
  rw [takeAll, List.forM_cons, hdiscard, bind_assoc]
  simp only [pure_bind, takeAll]

/-- A row of requests is taken, or refused with the same error, as by the
registry. -/
theorem Refines.takeAll {s : Store} {r : Registry} (h : s.Refines r) (qs : List Request)
    (hroom : r.size + qs.length < UInt32.size) :
    match r.takeAll qs with
    | .ok r' => ∃ s', (takeAll qs).run.run s = (.ok (), s') ∧ s'.Refines r'
    | .error x => ∃ s', (takeAll qs).run.run s = (.error x, s') := by
  induction qs generalizing s r with
  | nil => exact ⟨s, rfl, h⟩
  | cons q qs ih =>
      have hperform : (perform q).run.run s = (s.reply q, s.after q) := rfl
      rw [h.reply] at hperform
      rw [takeAll_cons, Registry.takeAll_cons]
      cases hanswer : r.answer q with
      | error x =>
          rw [hanswer] at hperform
          exact ⟨_, run_bind_of_error hperform _⟩
      | ok p =>
          obtain ⟨id, r'⟩ := p
          rw [hanswer] at hperform
          rw [run_bind_of_ok hperform]
          rw [List.length_cons] at hroom
          have hsize : r'.size ≤ r.size + 1 := by
            rw [← Registry.after_of_ok hanswer, Registry.size_after]
            cases r.accepted? q <;> simp
          have hafter := h.after q
          rw [Registry.after_of_ok hanswer] at hafter
          exact ih (hafter (by omega)) (show r'.size + _ < _ by omega)

/-- A store is built when the registry is, and names fields as it does; if
the one fails, the other fails with the same error. -/
theorem build_refines (fields : List FieldDef) (aliases : List (String × String))
    (hroom : fields.length + aliases.length < UInt32.size) :
    match Registry.build fields aliases with
    | .ok r => ∃ s, build fields aliases = .ok s ∧ s.Refines r ∧ s.namer = r.namer
    | .error x => build fields aliases = .error x := by
  have htake := Refines.empty.takeAll
    (fields.map .addField ++ aliases.map fun a => .addAlias a.1 a.2)
    (by simpa [Registry.empty, Registry.size] using hroom)
  rw [Registry.build_eq_takeAll, build, registerAll_eq_takeAll]
  split at htake
  · rename_i r hr
    obtain ⟨s, hrun, hs⟩ := htake
    rw [hrun]
    exact ⟨s, rfl, hs, hs.namer (Registry.run_of_takeAll hr ▸ Registry.Sound.empty.run _)⟩
  · obtain ⟨s, hrun⟩ := htake
    rw [hrun]
    rfl

/-! ## The headline theorem -/

/-- A run from the empty store that adds fewer than `2 ^ 32` fields. -/
def Fits (qs : List Request) : Prop := (empty.accepted qs).length < UInt32.size

instance (qs : List Request) : Decidable (Fits qs) := inferInstanceAs (Decidable (_ < _))

theorem Fits.refines {qs : List Request} (h : Fits qs) :
    (empty.run qs).Refines (Registry.empty.run qs) ∧
      empty.accepted qs = (Registry.empty.accepted qs).map (Prod.map UInt32.ofNat id) :=
  Refines.empty.run qs (by rwa [Registry.size, Registry.empty, List.length_nil, Nat.zero_add])

/-- A store that has taken some definitions under the ids given. -/
structure Coherent (s : Store) (taken : List (UInt32 × FieldDef)) : Prop where
  /-- The definitions are listed in order, with their columns filled in. -/
  list : s.list = taken.map fun p => (p.1, p.2.withColumn)
  /-- The ids are one, two and so on. -/
  ids : taken.map (fun p => p.1.toNat) = List.range' 1 taken.length
  size : s.size = taken.length
  /-- Every name points to a definition. -/
  points : ∀ p ∈ s.paths.entries, ∃ d, s.fields.get? p.2 = some d
  /-- Aliases are among the names. -/
  aliases : ∀ p ∈ s.aliases.entries, p ∈ s.paths.entries
  get? : ∀ name, (s.get? name).isSome = (s.id? name).isSome
  resolve : ∀ name, (∃ column, s.resolve name = .ok column) ↔ (s.id? name).isSome = true
  /-- An alias is a name that is not the path of its definition. -/
  isAlias : ∀ name, s.isAlias name = true ↔ ∃ d, s.get? name = some d ∧ d.path ≠ name

/-- What one store says of a name, the other says too. -/
structure Agree (s t : Store) (name : String) : Prop where
  id? : t.id? name = s.id? name
  get? : t.get? name = s.get? name
  resolve : t.resolve name = s.resolve name
  isAlias : t.isAlias name = s.isAlias name

namespace Refines

variable {s t : Store} {r r' : Registry}

theorem coherent (h : s.Refines r) (hr : r.Sound) {taken : List (Nat × FieldDef)}
    (hlist : r.list = taken.map fun p => (p.1, p.2.withColumn)) :
    s.Coherent (taken.map (Prod.map UInt32.ofNat id)) where
  list := by
    rw [h.list, hlist, List.map_map, List.map_map]
    rfl
  ids := by
    have hids : taken.map Prod.fst = List.range' 1 taken.length := by
      have hlisted := r.list_ids
      rwa [← Registry.length_list, hlist, List.map_map, List.length_map] at hlisted
    rw [List.map_map, List.length_map, ← hids]
    refine List.map_congr_left fun p hp => ?_
    have hmem : (p.1, p.2.withColumn) ∈ r.list := hlist ▸ List.mem_map.mpr ⟨p, hp, rfl⟩
    exact h.toNat_ofNat (Registry.mem_list_iff.mp hmem)
  size := by
    rw [h.size, ← Registry.length_list, hlist, List.length_map, List.length_map]
  points p hp := by
    have hid : s.id? p.1 = some p.2 := Table.mem_entries_iff.mp hp
    rw [h.id?] at hid
    obtain ⟨n, hn, hword⟩ := Option.map_eq_some_iff.mp hid
    obtain ⟨d, hd, -⟩ := hr.field?_of_id? hn
    exact ⟨d, by rw [← hword, h.fields, h.toNat_ofNat hd, hd]⟩
  aliases p hp := by
    have halias := Table.mem_entries_iff.mp hp
    rw [h.aliases] at halias
    obtain ⟨entry, hentry, hid⟩ := Option.map_eq_some_iff.mp halias
    refine Table.mem_entries_iff.mpr ?_
    rw [h.paths, (Option.filter_eq_some_iff.mp hentry).1, Option.map_some, hid]
  get? name := by
    rw [h.get? hr, h.id?, Option.isSome_map, hr.get?_isSome]
  resolve name := by
    rw [h.resolve hr, Registry.resolve_isOk_iff, hr.get?_isSome, h.id?, Option.isSome_map]
  isAlias name := by
    rw [h.isAlias, hr.isAlias_iff, h.get? hr]

theorem agree (h : s.Refines r) (h' : t.Refines r') (hr : r.Sound) (hr' : r'.Sound)
    {name : String} (hname : r.Agree r' name) : s.Agree t name where
  id? := by rw [h.id?, h'.id?, hname.id?]
  get? := by rw [h.get? hr, h'.get? hr', hname.get?]
  resolve := by rw [h.resolve hr, h'.resolve hr', hname.resolve]
  isAlias := by rw [h.isAlias, h'.isAlias, hname.isAlias]

end Refines

/-- **Runs of a store.** After any requests that add fewer than `2 ^ 32`
fields a store is coherent. It takes a definition if the path is new, under
the next id. It takes an alias if the name is new and the target is known,
and the alias stands for what the target stood for. A request that fails
leaves the whole state as it was, so it might as well not have been made,
and what a known name stands for never changes. -/
theorem run_coherent (past : List Request) (h : Fits past) :
    let s := empty.run past
    s.Coherent (empty.accepted past) ∧
    (∀ d, ((∃ id, s.reply (.addField d) = .ok id) ↔ s.id? d.path = none) ∧
      ∀ id, s.reply (.addField d) = .ok id → id = s.nextId ∧
        ∀ later, Fits (past ++ .addField d :: later) →
          (empty.run (past ++ .addField d :: later)).get? d.path = some d.withColumn) ∧
    (∀ name target id, (s.reply (.addAlias name target) = .ok id ↔
        s.id? name = none ∧ s.id? target = some id) ∧
      (s.reply (.addAlias name target) = .ok id →
        ∀ later, Fits (past ++ .addAlias name target :: later) →
          (empty.run (past ++ .addAlias name target :: later)).id? name = s.id? target ∧
          (empty.run (past ++ .addAlias name target :: later)).get? name = s.get? target)) ∧
    (∀ q x, s.reply q = .error x → s.after q = s ∧ ∀ later,
      empty.run (past ++ q :: later) = empty.run (past ++ later) ∧
      empty.accepted (past ++ q :: later) = empty.accepted (past ++ later)) ∧
    ∀ name, (s.id? name).isSome = true → ∀ later, Fits (past ++ later) →
      s.Agree (empty.run (past ++ later)) name := by
  intro s
  obtain ⟨hs, htaken⟩ := h.refines
  have hsound := fun qs => Registry.Sound.empty.run qs
  refine ⟨?_, fun d => ⟨reply_addField_isOk_iff, fun id hid => ⟨eq_nextId_of_reply hid, ?_⟩⟩,
    fun name target id => ⟨reply_addAlias_eq_ok_iff, fun hid later hfits => ?_⟩,
    fun q x hq => ⟨after_of_error hq, run_of_error hq⟩, fun name hname later hfits => ?_⟩
  · rw [htaken]
    exact hs.coherent (hsound past) (Registry.list_run _ past)
  · intro later hfits
    obtain ⟨n, r', hanswer, -⟩ := hs.of_reply_eq_ok hid
    rw [hfits.refines.1.get? (hsound _)]
    exact Registry.get?_run_addField hanswer later
  · obtain ⟨n, r', hanswer, -⟩ := hs.of_reply_eq_ok hid
    obtain ⟨halias, hget⟩ := Registry.run_addAlias (hsound past) hanswer later
    have hlater := hfits.refines.1
    rw [hlater.id?, hlater.get? (hsound _), hs.id?, hs.get? (hsound past), halias, hget]
    exact ⟨rfl, rfl⟩
  · refine hs.agree hfits.refines.1 (hsound past) (hsound _) ?_
    rw [Registry.run_append]
    refine (Registry.extends_run _ later).agree (hsound past) ?_
    rwa [hs.id?, Option.isSome_map] at hname

/-- An alias of an alias, after a field that was refused. -/
theorem run_coherent_alias_of_alias :
    let past : List Request := [.addField ⟨"a", "", .string, none⟩, .addAlias "b" "a",
      .addField ⟨"b", "x", .ip, none⟩]
    (empty.run past).reply (.addAlias "c" "b") = .ok 1 ∧
      (empty.run (past ++ [.addAlias "c" "b"])).get? "c" = some ⟨"a", "a", .string, none⟩ := by
  intro past
  obtain ⟨-, -, halias, -⟩ := run_coherent past (by decide)
  have hid := (halias "c" "b" 1).1.mpr (by decide)
  exact ⟨hid, ((halias "c" "b" 1).2 hid [] (by decide)).2⟩

end Store

end EventQuery
