import EventQuery.Schema.Registry

/-!
# Runs of a registry

A registry takes requests one after the other: definitions of fields, and
aliases for names that are known. `Registry.run` is the registry after a
list of requests, where a request that fails changes nothing, and
`Registry.accepted` is the definitions that were taken, with the ids that
were given out for them.

A request that succeeds appends (`answer_cases`), so a registry only grows
(`Registry.Extends`), and what is known stays as it is (`Extends.agree`).
`Registry.Sound` links the names with the definitions. It is kept by every
request, and so it holds after every run from the empty registry
(`Sound.run`). The listing is the definitions that were taken (`list_run`).
-/

namespace EventQuery

namespace Registry

/-! ## Requests -/

/-- What one may ask of a registry. -/
inductive Request where
  | addField (d : FieldDef)
  | addAlias (name target : String)
  deriving DecidableEq

def answer (r : Registry) : Request → Except SchemaError (Nat × Registry)
  | .addField d => r.register d
  | .addAlias name target => r.registerAlias name target

/-- The registry after a request. -/
def after (r : Registry) (q : Request) : Registry :=
  match r.answer q with
  | .ok (_, r') => r'
  | .error _ => r

/-- The registry after some requests. -/
def run (r : Registry) (qs : List Request) : Registry := qs.foldl after r

/-- The definition that a request adds, with its id. -/
def accepted? (r : Registry) : Request → Option (Nat × FieldDef)
  | .addField d =>
    match r.register d with
    | .ok (id, _) => some (id, d)
    | .error _ => none
  | .addAlias .. => none

/-- The definitions that a run adds, with their ids. -/
def accepted (r : Registry) : List Request → List (Nat × FieldDef)
  | [] => []
  | q :: qs => (r.accepted? q).toList ++ (r.after q).accepted qs

theorem run_append (r : Registry) (qs qs' : List Request) :
    r.run (qs ++ qs') = (r.run qs).run qs' :=
  List.foldl_append

theorem accepted_append (r : Registry) (qs qs' : List Request) :
    r.accepted (qs ++ qs') = r.accepted qs ++ (r.run qs).accepted qs' := by
  induction qs generalizing r with
  | nil => rfl
  | cons q qs ih =>
      rw [List.cons_append, accepted, accepted, ih, List.append_assoc]
      rfl

theorem after_of_ok {r r' : Registry} {q : Request} {id : Nat} (h : r.answer q = .ok (id, r')) :
    r.after q = r' := by
  rw [after, h]

theorem after_of_error {r : Registry} {q : Request} {x : SchemaError} (h : r.answer q = .error x) :
    r.after q = r := by
  rw [after, h]

/-! ## What a request does -/

theorem register_eq_ok_iff {r r' : Registry} {d : FieldDef} {id : Nat} :
    r.register d = .ok (id, r') ↔ r.id? d.path = none ∧ id = r.size + 1 ∧
      r' = ⟨r.fields ++ [d.withColumn], r.names ++ [(d.path, ⟨r.size + 1, false⟩)]⟩ := by
  unfold register
  cases r.id? d.path with
  | some taken => simp
  | none => simp [eq_comm]

theorem registerAlias_eq_ok_iff {r r' : Registry} {name target : String} {id : Nat} :
    r.registerAlias name target = .ok (id, r') ↔ r.id? name = none ∧ r.id? target = some id ∧
      r' = { r with names := r.names ++ [(name, ⟨id, true⟩)] } := by
  unfold registerAlias
  cases r.id? target with
  | none => simp
  | some found =>
      cases r.id? name with
      | some taken => simp
      | none =>
          simp only [Except.ok.injEq, Prod.mk.injEq, Option.some.injEq, true_and]
          constructor
          · rintro ⟨rfl, rfl⟩
            exact ⟨rfl, rfl⟩
          · rintro ⟨rfl, rfl⟩
            exact ⟨rfl, rfl⟩

/-- A request that succeeds adds one name, and a definition if it is one. -/
theorem answer_cases {r r' : Registry} {q : Request} {id : Nat} (h : r.answer q = .ok (id, r')) :
    (∃ d, q = .addField d ∧ r.id? d.path = none ∧ id = r.size + 1 ∧
      r' = ⟨r.fields ++ [d.withColumn], r.names ++ [(d.path, ⟨r.size + 1, false⟩)]⟩) ∨
    ∃ name target, q = .addAlias name target ∧ r.id? name = none ∧ r.id? target = some id ∧
      r' = { r with names := r.names ++ [(name, ⟨id, true⟩)] } := by
  cases q with
  | addField d => exact .inl ⟨d, rfl, register_eq_ok_iff.mp h⟩
  | addAlias name target => exact .inr ⟨name, target, rfl, registerAlias_eq_ok_iff.mp h⟩

/-! ## Growth -/

/-- One registry goes on from another. -/
structure Extends (r s : Registry) : Prop where
  fields : r.fields <+: s.fields
  names : r.names <+: s.names

namespace Extends

variable {r s : Registry}

theorem refl (r : Registry) : r.Extends r := ⟨List.prefix_refl _, List.prefix_refl _⟩

theorem trans {t : Registry} (h : r.Extends s) (h' : s.Extends t) : r.Extends t :=
  ⟨h.fields.trans h'.fields, h.names.trans h'.names⟩

theorem lookup {name : String} {entry : NameEntry} (h : r.Extends s)
    (hname : r.names.lookup name = some entry) : s.names.lookup name = some entry := by
  obtain ⟨rest, hrest⟩ := h.names
  rw [← hrest, List.lookup_append, hname, Option.some_or]

theorem field? {id : Nat} {d : FieldDef} (h : r.Extends s) (hid : r.field? id = some d) :
    s.field? id = some d := by
  obtain ⟨rest, hrest⟩ := h.fields
  cases id with
  | zero => cases hid
  | succ n =>
      change r.fields[n]? = some d at hid
      change s.fields[n]? = some d
      rw [← hrest, List.getElem?_append_left (List.getElem?_eq_some_iff.mp hid).1, hid]

theorem id? {name : String} {id : Nat} (h : r.Extends s) (hname : r.id? name = some id) :
    s.id? name = some id := by
  obtain ⟨entry, hentry, rfl⟩ := Option.map_eq_some_iff.mp hname
  rw [Registry.id?, h.lookup hentry, Option.map_some]

theorem get? {name : String} {d : FieldDef} (h : r.Extends s) (hname : r.get? name = some d) :
    s.get? name = some d := by
  obtain ⟨id, hid, hfield⟩ := Option.bind_eq_some_iff.mp hname
  exact Option.bind_eq_some_iff.mpr ⟨id, h.id? hid, h.field? hfield⟩

theorem isAlias {name : String} {id : Nat} (h : r.Extends s) (hname : r.id? name = some id) :
    s.isAlias name = r.isAlias name := by
  obtain ⟨entry, hentry, -⟩ := Option.map_eq_some_iff.mp hname
  rw [Registry.isAlias, Registry.isAlias, h.lookup hentry, hentry]

end Extends

theorem extends_after (r : Registry) (q : Request) : r.Extends (r.after q) := by
  cases h : r.answer q with
  | error x =>
      rw [after_of_error h]
      exact .refl r
  | ok reply =>
      obtain ⟨id, r'⟩ := reply
      rw [after_of_ok h]
      rcases answer_cases h with ⟨d, -, -, -, rfl⟩ | ⟨name, target, -, -, -, rfl⟩
      · exact ⟨List.prefix_append _ _, List.prefix_append _ _⟩
      · exact ⟨List.prefix_refl _, List.prefix_append _ _⟩

theorem extends_run (r : Registry) (qs : List Request) : r.Extends (r.run qs) := by
  induction qs generalizing r with
  | nil => exact .refl r
  | cons q qs ih => exact (r.extends_after q).trans (ih _)

/-! ## Names and definitions -/

/-- The names are distinct and point to definitions. A name is an alias if it
is not the path of its definition, and all paths are names. -/
structure Sound (r : Registry) : Prop where
  nodup : (r.names.map Prod.fst).Nodup
  points : ∀ p ∈ r.names, ∃ d, r.field? p.2.id = some d ∧ (p.2.isAlias = true ↔ d.path ≠ p.1)
  paths : ∀ d ∈ r.fields, ∃ id, r.id? d.path = some id

theorem path_withColumn (d : FieldDef) : d.withColumn.path = d.path := by
  unfold FieldDef.withColumn
  split <;> rfl

theorem not_mem_of_id?_eq_none {r : Registry} {name : String} (h : r.id? name = none) :
    name ∉ r.names.map Prod.fst := by
  intro hmem
  obtain ⟨p, hp, rfl⟩ := List.mem_map.mp hmem
  have hlookup := Option.map_eq_none_iff.mp h
  exact absurd rfl (bne_iff_ne.mp (List.lookup_eq_none_iff.mp hlookup p hp))

theorem lookup_eq_none {r : Registry} {name : String} (h : r.id? name = none) :
    r.names.lookup name = none :=
  Option.map_eq_none_iff.mp h

/-- A new name comes to those there are. -/
theorem lookup_append {r : Registry} {name : String} (h : r.id? name = none) (entry : NameEntry)
    (other : String) : (r.names ++ [(name, entry)]).lookup other =
      if other = name then some entry else r.names.lookup other := by
  rw [List.lookup_append]
  split
  · rename_i same
    rw [same, lookup_eq_none h]
    simp
  · rename_i different
    have hbeq : (other == name) = false := beq_eq_false_iff_ne.mpr different
    simp [List.lookup_cons, hbeq]

theorem id?_append {r : Registry} {name : String} (h : r.id? name = none) (fields : List FieldDef)
    (entry : NameEntry) : id? ⟨fields, r.names ++ [(name, entry)]⟩ name = some entry.id := by
  rw [id?, lookup_append h, if_pos rfl, Option.map_some]

/-- A new definition comes to those there are. -/
theorem field?_append (r : Registry) (d : FieldDef) (names : List (String × NameEntry)) (id : Nat) :
    field? ⟨r.fields ++ [d], names⟩ id = if id = r.size + 1 then some d else r.field? id := by
  cases id with
  | zero => rfl
  | succ n =>
      change (r.fields ++ [d])[n]? = if n + 1 = r.fields.length + 1 then some d else r.fields[n]?
      rcases Nat.lt_trichotomy n r.fields.length with hlt | heq | hgt
      · rw [List.getElem?_append_left hlt, if_neg (by omega)]
      · rw [if_pos (congrArg (· + 1) heq), heq, List.getElem?_concat_length]
      · have hlength : (r.fields ++ [d]).length ≤ n := by
          rw [List.length_append]
          exact hgt
        rw [if_neg (by omega), List.getElem?_eq_none hlength,
          List.getElem?_eq_none (Nat.le_of_lt hgt)]

namespace Sound

theorem empty : Sound empty := ⟨List.nodup_nil, nofun, nofun⟩

/-- One more name, with or without a definition. -/
theorem append {r : Registry} (h : r.Sound) {name : String} (hname : r.id? name = none)
    (entry : NameEntry) (fields : List FieldDef) {d : FieldDef}
    (hpoints : field? ⟨r.fields ++ fields, r.names ++ [(name, entry)]⟩ entry.id = some d)
    (hentry : entry.isAlias = true ↔ d.path ≠ name) (hpaths : ∀ d ∈ fields, d.path = name) :
    Sound ⟨r.fields ++ fields, r.names ++ [(name, entry)]⟩ := by
  have hextends : r.Extends ⟨r.fields ++ fields, r.names ++ [(name, entry)]⟩ :=
    ⟨List.prefix_append _ _, List.prefix_append _ _⟩
  constructor
  · rw [List.map_append]
    refine List.nodup_append.mpr ⟨h.nodup, by simp, ?_⟩
    rintro n hn _ hsingle rfl
    obtain rfl := List.mem_singleton.mp hsingle
    exact not_mem_of_id?_eq_none hname hn
  · refine List.forall_mem_append.mpr ⟨fun p hp => ?_, ?_⟩
    · obtain ⟨d, hd, halias⟩ := h.points p hp
      exact ⟨d, hextends.field? hd, halias⟩
    · rintro p hp
      obtain rfl := List.mem_singleton.mp hp
      exact ⟨d, hpoints, hentry⟩
  · refine List.forall_mem_append.mpr ⟨fun d hd => ?_, fun d hd => ?_⟩
    · obtain ⟨id, hid⟩ := h.paths d hd
      exact ⟨id, hextends.id? hid⟩
    · rw [hpaths d hd]
      exact ⟨entry.id, id?_append hname _ entry⟩

/-- A known name has a definition. -/
theorem field?_of_id? {r : Registry} (h : r.Sound) {name : String} {id : Nat}
    (hid : r.id? name = some id) :
    ∃ d, r.field? id = some d ∧ (r.isAlias name = true ↔ d.path ≠ name) := by
  obtain ⟨entry, hentry, rfl⟩ := Option.map_eq_some_iff.mp hid
  obtain ⟨before, rest, hnames, -⟩ := List.lookup_eq_some_iff.mp hentry
  have hmem : (name, entry) ∈ r.names := by
    rw [hnames]
    exact List.mem_append_right _ List.mem_cons_self
  rw [isAlias, hentry]
  exact h.points _ hmem

/-- A new name is not the path of a definition. -/
theorem path_ne {r : Registry} (h : r.Sound) {name : String} (hname : r.id? name = none) {id : Nat}
    {d : FieldDef} (hd : r.field? id = some d) : d.path ≠ name := by
  rintro rfl
  have hmem : d ∈ r.fields := by
    cases id with
    | zero => cases hd
    | succ n => exact List.mem_of_getElem? hd
  obtain ⟨id', hid'⟩ := h.paths d hmem
  rw [hname] at hid'
  cases hid'

theorem after {r : Registry} (h : r.Sound) (q : Request) : (r.after q).Sound := by
  cases hanswer : r.answer q with
  | error x => rwa [after_of_error hanswer]
  | ok reply =>
      obtain ⟨id, r'⟩ := reply
      rw [after_of_ok hanswer]
      rcases answer_cases hanswer with
        ⟨d, -, hname, -, rfl⟩ | ⟨name, target, -, hname, htarget, rfl⟩
      · refine h.append hname _ [d.withColumn] List.getElem?_concat_length ?_ ?_
        · simp [path_withColumn]
        · exact fun d' hd' => List.mem_singleton.mp hd' ▸ path_withColumn d
      · obtain ⟨d, hd, -⟩ := h.field?_of_id? htarget
        have happend := h.append hname ⟨id, true⟩ [] (d := d)
          (by rw [List.append_nil]; exact hd) (iff_of_true rfl (h.path_ne hname hd)) nofun
        rwa [List.append_nil] at happend

theorem run {r : Registry} (h : r.Sound) (qs : List Request) : (r.run qs).Sound := by
  induction qs generalizing r with
  | nil => exact h
  | cons q qs ih => exact ih (h.after q)

/-- A definition is found under a name if and only if the name has an id. -/
theorem get?_isSome {r : Registry} (h : r.Sound) (name : String) :
    (r.get? name).isSome = (r.id? name).isSome := by
  unfold get?
  cases hid : r.id? name with
  | none => rfl
  | some id =>
      obtain ⟨d, hd, -⟩ := h.field?_of_id? hid
      rw [Option.bind_some, hd]
      rfl

theorem isAlias_iff {r : Registry} (h : r.Sound) (name : String) :
    r.isAlias name = true ↔ ∃ d, r.get? name = some d ∧ d.path ≠ name := by
  unfold get?
  cases hid : r.id? name with
  | none =>
      have hlookup := Option.map_eq_none_iff.mp hid
      simp [isAlias, hlookup]
  | some id =>
      obtain ⟨d, hd, halias⟩ := h.field?_of_id? hid
      simp [hd, halias]

end Sound

theorem resolve_isOk_iff (r : Registry) (name : String) :
    (∃ column, r.resolve name = .ok column) ↔ (r.get? name).isSome = true := by
  unfold resolve
  cases r.get? name <;> simp

/-! ## The listing -/

theorem le_size_of_field? {r : Registry} {id : Nat} {d : FieldDef} (h : r.field? id = some d) :
    id ≤ r.size := by
  cases id with
  | zero => cases h
  | succ n => exact (List.getElem?_eq_some_iff.mp h).1

theorem mem_list_iff {r : Registry} {id : Nat} {d : FieldDef} :
    (id, d) ∈ r.list ↔ r.field? id = some d := by
  rw [list, List.mem_map]
  constructor
  · rintro ⟨⟨d', i⟩, hmem, heq⟩
    obtain ⟨rfl, rfl⟩ := Prod.mk.inj heq
    exact List.mem_zipIdx_iff_getElem?.mp hmem
  · intro hid
    cases id with
    | zero => cases hid
    | succ n => exact ⟨(d, n), List.mem_zipIdx_iff_getElem?.mpr hid, rfl⟩

theorem length_list (r : Registry) : r.list.length = r.size := by
  rw [list, List.length_map, List.length_zipIdx, size]

theorem list_concat (r : Registry) (d : FieldDef) (names : List (String × NameEntry)) :
    list ⟨r.fields ++ [d], names⟩ = r.list ++ [(r.size + 1, d)] := by
  simp [list, size, List.zipIdx_append]

theorem list_ids (r : Registry) : r.list.map Prod.fst = List.range' 1 r.size := by
  have hindices : r.fields.zipIdx.map Prod.snd = List.range' 0 r.size := List.zipIdx_map_snd _ _
  calc r.list.map Prod.fst
      = (r.fields.zipIdx.map Prod.snd).map (1 + ·) := by
        rw [list, List.map_map, List.map_map]
        exact List.map_congr_left fun p _ => Nat.add_comm _ _
    _ = List.range' 1 r.size := by rw [hindices, List.map_add_range']

theorem accepted?_of_error {r : Registry} {q : Request} {x : SchemaError}
    (h : r.answer q = .error x) : r.accepted? q = none := by
  cases q with
  | addField d =>
      change r.register d = .error x at h
      rw [accepted?, h]
  | addAlias => rfl

theorem list_after (r : Registry) (q : Request) : (r.after q).list =
    r.list ++ (r.accepted? q).toList.map fun p => (p.1, p.2.withColumn) := by
  cases h : r.answer q with
  | error x =>
      rw [after_of_error h, accepted?_of_error h]
      exact (List.append_nil _).symm
  | ok reply =>
      obtain ⟨id, r'⟩ := reply
      rw [after_of_ok h]
      rcases answer_cases h with ⟨d, rfl, -, rfl, rfl⟩ | ⟨name, target, rfl, -, -, rfl⟩
      · have hregister : r.register d = .ok (r.size + 1, _) := h
        rw [list_concat, accepted?, hregister]
        rfl
      · exact (List.append_nil _).symm

theorem size_after (r : Registry) (q : Request) :
    (r.after q).size = r.size + (r.accepted? q).toList.length := by
  simpa [list, size] using congrArg List.length (r.list_after q)

theorem list_run (r : Registry) (qs : List Request) : (r.run qs).list =
    r.list ++ (r.accepted qs).map fun p => (p.1, p.2.withColumn) := by
  induction qs generalizing r with
  | nil => exact (List.append_nil _).symm
  | cons q qs ih =>
      rw [accepted, List.map_append, ← List.append_assoc, ← list_after]
      exact ih _

/-! ## What requests achieve -/

theorem get?_of_register {r r' : Registry} {d : FieldDef} {id : Nat}
    (h : r.register d = .ok (id, r')) : r'.get? d.path = some d.withColumn := by
  obtain ⟨hname, -, rfl⟩ := register_eq_ok_iff.mp h
  exact Option.bind_eq_some_iff.mpr ⟨_, id?_append hname _ _, List.getElem?_concat_length⟩

theorem id?_of_registerAlias {r r' : Registry} {name target : String} {id : Nat}
    (h : r.registerAlias name target = .ok (id, r')) : r'.id? name = some id := by
  obtain ⟨hname, -, rfl⟩ := registerAlias_eq_ok_iff.mp h
  exact id?_append hname _ _

theorem get?_of_registerAlias {r r' : Registry} {name target : String} {id : Nat}
    (h : r.registerAlias name target = .ok (id, r')) : r'.get? name = r.get? target := by
  obtain ⟨-, htarget, hr'⟩ := registerAlias_eq_ok_iff.mp h
  rw [get?, get?, id?_of_registerAlias h, htarget, hr']
  rfl

theorem run_of_ok {r r' : Registry} {q : Request} {id : Nat} {past : List Request}
    (h : (r.run past).answer q = .ok (id, r')) (later : List Request) :
    r.run (past ++ q :: later) = r'.run later := by
  rw [run_append]
  exact congrArg (Registry.run · later) (after_of_ok h)

/-- A field stays under its path. -/
theorem get?_run_addField {past : List Request} {d : FieldDef} {id : Nat} {r r' : Registry}
    (h : (r.run past).answer (.addField d) = .ok (id, r')) (later : List Request) :
    (r.run (past ++ .addField d :: later)).get? d.path = some d.withColumn := by
  rw [run_of_ok h]
  exact (r'.extends_run later).get? (get?_of_register h)

/-- An alias stays with what its target stood for. -/
theorem run_addAlias {past : List Request} {name target : String} {id : Nat} {r r' : Registry}
    (hr : (r.run past).Sound) (h : (r.run past).answer (.addAlias name target) = .ok (id, r'))
    (later : List Request) :
    let r'' := r.run (past ++ .addAlias name target :: later)
    r''.id? name = (r.run past).id? target ∧ r''.get? name = (r.run past).get? target := by
  obtain ⟨-, htarget, -⟩ := registerAlias_eq_ok_iff.mp h
  obtain ⟨d, hd, -⟩ := hr.field?_of_id? htarget
  have hget : (r.run past).get? target = some d := Option.bind_eq_some_iff.mpr ⟨id, htarget, hd⟩
  rw [run_of_ok h, htarget, hget]
  exact ⟨(r'.extends_run later).id? (id?_of_registerAlias h),
    (r'.extends_run later).get? ((get?_of_registerAlias h).trans hget)⟩

/-- What one registry says of a name, the other says too. -/
structure Agree (r s : Registry) (name : String) : Prop where
  id? : s.id? name = r.id? name
  get? : s.get? name = r.get? name
  resolve : s.resolve name = r.resolve name
  isAlias : s.isAlias name = r.isAlias name

theorem Extends.agree {r s : Registry} (h : r.Extends s) (hr : r.Sound) {name : String}
    (hname : (r.id? name).isSome = true) : r.Agree s name := by
  obtain ⟨id, hid⟩ := Option.isSome_iff_exists.mp hname
  obtain ⟨d, hd⟩ := Option.isSome_iff_exists.mp ((hr.get?_isSome name).trans hname)
  have hget : s.get? name = r.get? name := (h.get? hd).trans hd.symm
  refine ⟨(h.id? hid).trans hid.symm, hget, ?_, h.isAlias hid⟩
  rw [Registry.resolve, Registry.resolve, hget]

/-! ## Requests in a row -/

/-- The registry after some requests, if none of them is refused. -/
def takeAll (r : Registry) (qs : List Request) : Except SchemaError Registry :=
  qs.foldlM (fun r q => (·.2) <$> r.answer q) r

theorem build_eq_takeAll (fields : List FieldDef) (aliases : List (String × String)) :
    build fields aliases =
      empty.takeAll (fields.map .addField ++ aliases.map fun a => .addAlias a.1 a.2) := by
  unfold takeAll
  simp only [List.foldlM_append, List.foldlM_map]
  rfl

theorem takeAll_cons (r : Registry) (q : Request) (qs : List Request) :
    r.takeAll (q :: qs) = r.answer q >>= fun p => p.2.takeAll qs := by
  rw [takeAll, List.foldlM_cons, bind_map_left]
  rfl

theorem run_of_takeAll {r r' : Registry} {qs : List Request} (h : r.takeAll qs = .ok r') :
    r.run qs = r' := by
  induction qs generalizing r with
  | nil => exact Except.ok.inj h
  | cons q qs ih =>
      rw [takeAll_cons] at h
      cases hanswer : r.answer q with
      | error x =>
          rw [hanswer] at h
          cases h
      | ok p =>
          rw [hanswer] at h
          rw [run, List.foldl_cons, after_of_ok hanswer]
          exact ih h

end Registry

end EventQuery
