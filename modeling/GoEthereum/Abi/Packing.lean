import GoEthereum.Abi.Encoding

/-!
# What `pack` writes

`pack_eq`: for a value of its type `pack` writes the encoding of the ABI,
unless two components of a tuple inside the value have the same name in camel
case. `NewType` has given their fields different names, but `pack` looks every
component up by its camel case name again, and `mapArgNamesToStructFields`
refuses the second. `clean_of_pack` is the converse.
-/

namespace GoEthereum.Abi

open HeadTail Function
open List hiding tails tails_append

variable {vs : List Value} {t : Ty} {v : Value}

variable {d : Bool} {parts : List (Piece UInt8)} {fields : List Name} {ts : List Ty} {elem : Ty}
  {packElem : Value → Except Err Bytes}

/-! ## Type checks -/

theorem getTypeKind_ok (h : t.buildable = true) : getTypeKind t = .ok t.kind := by
  rw [getTypeKind, if_pos h]

theorem HasType.kind_eq (h : HasType t v) : v.kind = t.kind := by
  cases t with
  | int _ | uint _ | address | fixedBytes _ | function | slice _ | array _ _ | tuple _ _ =>
    rw [HasType] at h
    obtain ⟨_, rfl, _⟩ := h
    rfl
  | bool | string | bytes =>
    rw [HasType] at h
    obtain ⟨_, rfl⟩ := h
    rfl

/-- Elements of the element type pass the check of the elements. -/
theorem elemCheck_ok {inner : Value → Except Err Unit} {val : Value}
    (hinner : elem.isSeq = true → ∀ x ∈ val.elems, inner x = .ok ())
    (hkind : val.elemKind = elem.kind) (hbuild : elem.buildable = true) :
    elemCheck inner elem val = .ok () := by
  have hbase : (do
      let k ← getTypeKind elem
      if val.elemKind ≠ k then Except.error Err.typeErr else Except.ok ()) = .ok () := by
    rw [getTypeKind_ok hbuild]
    show (if val.elemKind ≠ elem.kind then Except.error Err.typeErr else Except.ok ()) = _
    rw [if_neg (not_not.mpr hkind)]
  unfold elemCheck
  cases hseq : elem.isSeq with
  | false => exact hbase
  | true =>
    cases helems : val.elems with
    | nil => exact hbase
    | cons x xs => exact hinner hseq x (helems ▸ mem_cons_self ..)

theorem sliceTypeCheck_ok : ∀ {t : Ty} {v : Value}, t.isSeq = true → t.buildable = true →
    HasType t v → sliceTypeCheck t v = .ok ()
  | .slice elem, v, _, hbuild, h => by
    rw [HasType] at h
    obtain ⟨vs, rfl, hvs⟩ := h
    rw [sliceTypeCheck, if_neg (by simp [Value.kind])]
    exact elemCheck_ok (fun hseq x hx => sliceTypeCheck_ok hseq hbuild (hvs x hx)) rfl hbuild
  | .array n elem, v, _, hbuild, h => by
    rw [HasType] at h
    rw [Ty.buildable, Bool.and_eq_true] at hbuild
    obtain ⟨vs, rfl, rfl, hvs⟩ := h
    rw [sliceTypeCheck, if_neg (by simp [Value.kind]), if_neg (by simp [Value.elems])]
    exact elemCheck_ok (fun hseq x hx => sliceTypeCheck_ok hseq hbuild.1 (hvs x hx)) rfl hbuild.1
  | .int _, _, h, _, _ | .uint _, _, h, _, _ | .bool, _, h, _, _ | .string, _, h, _, _
  | .tuple _ _, _, h, _, _ | .address, _, h, _, _ | .fixedBytes _, _, h, _, _ | .bytes, _, h, _, _
  | .function, _, h, _, _ => by cases h

theorem typeCheck_ok (hbuild : t.buildable = true) (h : HasType t v) : typeCheck t v = .ok () := by
  have hkind : ¬t.kind ≠ v.kind := not_not.mpr h.kind_eq.symm
  cases t with
  | slice elem => exact sliceTypeCheck_ok rfl hbuild h
  | array n elem => exact sliceTypeCheck_ok rfl hbuild h
  | fixedBytes n =>
    have hlen : ¬n ≠ v.fixedLen := by
      rw [HasType] at h
      obtain ⟨b, rfl, hb⟩ := h
      exact not_not.mpr hb.symm
    rw [typeCheck, if_neg hkind, if_neg hlen]
  | int _ | uint _ | bool | string | tuple _ _ | address | bytes | function =>
    exact if_neg hkind

/-! ## Names -/

theorem toCamelCase_nil : toCamelCase [] = [] := rfl

theorem toCamelCase_ne {n : Name} (h : toCamelCase n ≠ []) : n ≠ [] := by
  rintro rfl
  exact h toCamelCase_nil

/-- Distinct camel case names are paired with the fields of their own. -/
theorem pairNames_ok : ∀ {argNames : List Name} {p : Pairing},
    (argNames.map toCamelCase).Nodup → (∀ n ∈ argNames, toCamelCase n ≠ []) →
    (∀ n ∈ argNames, toCamelCase n ∈ fields) → (∀ n ∈ argNames, p.abi2struct n = []) →
    (∀ n ∈ argNames, p.struct2abi (toCamelCase n) = []) →
    ∃ q, pairNames fields p argNames = .ok q ∧ (∀ n ∈ argNames, q.abi2struct n = toCamelCase n) ∧
      ∀ n, n ∉ argNames → q.abi2struct n = p.abi2struct n
  | [], p, _, _, _, _, _ => ⟨p, rfl, fun n hn => (by cases hn), fun _ _ => rfl⟩
  | a :: as, p, hnd, hne, hmem, habi, hstruct => by
    rw [map_cons, nodup_cons] at hnd
    obtain ⟨hfresh, hnd⟩ := hnd
    have hdiff : ∀ n ∈ as, toCamelCase n ≠ toCamelCase a := fun n hn h =>
      hfresh (h ▸ mem_map_of_mem hn)
    have ha : a ∉ as := fun h => hdiff a h rfl
    set p' : Pairing := ⟨update p.abi2struct a (toCamelCase a),
      update p.struct2abi (toCamelCase a) a⟩ with hp'
    have hstep : pairName fields p a = .ok p' := by
      rw [pairName, if_neg (hne a (mem_cons_self ..)),
        if_neg (not_not.mpr (habi a (mem_cons_self ..))),
        if_neg (not_not.mpr (hstruct a (mem_cons_self ..))),
        if_pos (hmem a (mem_cons_self ..))]
    have habi' : ∀ n ∈ as, p'.abi2struct n = [] := by
      intro n hn
      have hna : n ≠ a := fun h => ha (h ▸ hn)
      rw [hp']
      exact (update_of_ne hna _ _).trans (habi n (mem_cons_of_mem _ hn))
    have hstruct' : ∀ n ∈ as, p'.struct2abi (toCamelCase n) = [] := by
      intro n hn
      rw [hp']
      exact (update_of_ne (hdiff n hn) _ _).trans (hstruct n (mem_cons_of_mem _ hn))
    obtain ⟨q, hq, hown, hrest⟩ := pairNames_ok hnd (fun n hn => hne n (mem_cons_of_mem _ hn))
      (fun n hn => hmem n (mem_cons_of_mem _ hn)) habi' hstruct'
    refine ⟨q, ?_, ?_, ?_⟩
    · rw [pairNames, hstep]
      exact hq
    · intro n hn
      rcases mem_cons.mp hn with rfl | hn
      · rw [hrest n ha, hp']
        exact update_self ..
      · exact hown n hn
    · intro n hn
      rw [mem_cons, not_or] at hn
      rw [hrest n hn.2, hp']
      exact update_of_ne hn.1 _ _

/-- Of two components with one camel case name the second is refused: both
names are new, and the field they lead to is taken. -/
theorem nodup_of_pairNames : ∀ (argNames done : List Name) {p q : Pairing},
    pairNames fields p argNames = .ok q → argNames.Nodup →
    (∀ n ∈ argNames, toCamelCase n ≠ []) → (∀ n ∈ argNames, p.abi2struct n = []) →
    (∀ c ∈ done, p.struct2abi c ≠ []) → done.Nodup → (done ++ argNames.map toCamelCase).Nodup
  | [], done, p, q, _, _, _, _, _, hdone => by simpa using hdone
  | a :: as, done, p, q, h, hnd, hne, habi, htaken, hdone => by
    rw [nodup_cons] at hnd
    have hane := hne a (mem_cons_self ..)
    rw [pairNames] at h
    obtain ⟨p', hstep, h⟩ := ok_of_bind h
    rw [pairName, if_neg hane, if_neg (not_not.mpr (habi a (mem_cons_self ..)))] at hstep
    by_cases hfree : p.struct2abi (toCamelCase a) = []
    · rw [if_neg (not_not.mpr hfree)] at hstep
      -- the new field is none of those that are taken
      have hnew : toCamelCase a ∉ done := fun hmem => htaken _ hmem hfree
      have hp' : p'.struct2abi = update p.struct2abi (toCamelCase a) a ∧
          ∀ n, n ≠ a → p'.abi2struct n = p.abi2struct n := by
        split at hstep
        · cases hstep
          exact ⟨rfl, fun n hn => update_of_ne hn _ _⟩
        · cases hstep
          exact ⟨rfl, fun _ _ => rfl⟩
      have hrest := nodup_of_pairNames as (done ++ [toCamelCase a]) h hnd.2
        (fun n hn => hne n (mem_cons_of_mem _ hn)) ?_ ?_ ?_
      · simpa using hrest
      · intro n hn
        have hna : n ≠ a := fun hn' => hnd.1 (hn' ▸ hn)
        rw [hp'.2 n hna]
        exact habi n (mem_cons_of_mem _ hn)
      · intro c hc
        rw [hp'.1]
        by_cases hca : c = toCamelCase a
        · rw [hca, update_self]
          exact toCamelCase_ne hane
        · rw [update_of_ne hca]
          rcases mem_append.mp hc with hc | hc
          · exact htaken c hc
          · exact absurd (mem_singleton.mp hc) hca
      · rw [nodup_append]
        refine ⟨hdone, nodup_singleton _, ?_⟩
        rintro c hc d hd rfl
        exact hnew (mem_singleton.mp hd ▸ hc)
    · rw [if_pos hfree] at hstep
      cases hstep

theorem lookup_zip_map {ns : List Name} (hnd : (ns.map toCamelCase).Nodup)
    (hlen : ns.length = vs.length) :
    ns.map (fun n => ((ns.map toCamelCase).zip vs).lookup (toCamelCase n)) = vs.map some := by
  induction ns generalizing vs with
  | nil =>
    cases vs with
    | nil => rfl
    | cons v vs => cases hlen
  | cons n ns ih =>
    cases vs with
    | nil => cases hlen
    | cons v vs =>
      rw [map_cons, nodup_cons] at hnd
      have hskip : ns.map (fun m => (((n :: ns).map toCamelCase).zip (v :: vs)).lookup
          (toCamelCase m)) =
          ns.map (fun m => ((ns.map toCamelCase).zip vs).lookup (toCamelCase m)) := by
        refine map_congr_left fun m hm => ?_
        have hne : (toCamelCase m == toCamelCase n) = false := by
          rw [beq_eq_false_iff_ne]
          exact fun h => hnd.1 (h ▸ mem_map_of_mem hm)
        rw [map_cons, zip_cons_cons, List.lookup_cons, hne]
      rw [map_cons, hskip, ih hnd.2 (Nat.succ.inj hlen)]
      simp [List.lookup_cons]

/-! ## The loops -/

/-- The accumulator of the loops as that of the layout. -/
def Packed.ofEmit (x : Bytes × Bytes × Nat) : Packed := ⟨x.1, x.2.1, x.2.2⟩

theorem Packed.add_ofEmit {x : Bytes × Bytes × Nat} {dynamic : Bool} {val : Bytes}
    (h : dynamic = true → x.2.2 + val.length < 2 ^ 63) :
    (Packed.ofEmit x).add dynamic val = Packed.ofEmit (emitPiece word x ⟨dynamic, val⟩) := by
  cases dynamic with
  | false => rfl
  | true =>
    have hoff : int64 ((x.2.2 : Int) + val.length) = ((x.2.2 + val.length : Nat) : Int) := by
      push_cast
      exact int64_of_lt (by positivity) (by exact_mod_cast h rfl)
    show (⟨_, _, int64 ((x.2.2 : Int) + val.length)⟩ : Packed) = _
    rw [hoff]
    rfl

/-- Where the tail ends once the parts are written. -/
def tailEnd (x : Bytes × Bytes × Nat) (parts : List (Piece UInt8)) : Nat :=
  x.2.2 + (tails parts).length

theorem tailEnd_emitPiece (x : Bytes × Bytes × Nat) (p : Piece UInt8) (ps : List (Piece UInt8)) :
    tailEnd (emitPiece word x p) ps = tailEnd x (p :: ps) := by
  by_cases hp : p.pointed = true
  · simp [tailEnd, emitPiece, tails, hp, Nat.add_assoc]
  · simp [tailEnd, emitPiece, tails, hp]

theorem le_tailEnd (x : Bytes × Bytes × Nat) (p : Piece UInt8) (ps : List (Piece UInt8))
    (hp : p.pointed = true) : x.2.2 + p.body.length ≤ tailEnd x (p :: ps) := by
  simp [tailEnd, tails, hp]

theorem packEach_eq {enc : Value → Bytes} :
    ∀ {vs : List Value} {x : Bytes × Bytes × Nat}, (∀ v ∈ vs, packElem v = .ok (enc v)) →
    tailEnd x (vs.map fun v => ⟨d, enc v⟩) < 2 ^ 63 →
    packEach packElem d (Packed.ofEmit x) vs =
      .ok (Packed.ofEmit (emit word x (vs.map fun v => ⟨d, enc v⟩)))
  | [], x, _, _ => rfl
  | v :: vs, x, h, hend => by
    rw [map_cons] at hend
    have hle := le_tailEnd x ⟨d, enc v⟩ (vs.map fun v => ⟨d, enc v⟩)
    rw [packEach, h v (mem_cons_self ..)]
    show packEach packElem d ((Packed.ofEmit x).add d (enc v)) vs = _
    rw [Packed.add_ofEmit fun hd => (hle hd).trans_lt hend,
      packEach_eq (fun u hu => h u (mem_cons_of_mem _ hu))
        ((tailEnd_emitPiece x _ _).trans_lt hend)]
    rfl

/-- The bytes of a finished loop that started where the tail does. -/
theorem bytes_emit {ret : Bytes} {off : Nat}
    (h : off = headWidth 32 parts ∨ ∀ p ∈ parts, p.pointed = false) :
    (Packed.ofEmit (emit word (ret, [], off) parts)).bytes = ret ++ layout 32 word parts := by
  have hheads : heads word off parts = heads word (headWidth 32 parts) parts := by
    rcases h with rfl | h
    · rfl
    · exact heads_inline word h _ _
  rw [emit_eq, layout, ← hheads]
  simp [Packed.bytes, Packed.ofEmit]

/-- The elements of a slice or an array, behind what is written already. -/
theorem packSeq_eq (hwf : elem.WellFormed) (hty : ∀ x ∈ v.elems, HasType elem x)
    (hpack : ∀ x ∈ v.elems, pack elem x = .ok (encode elem x))
    (hlen : (layout 32 word (v.elems.map (part elem))).length < 2 ^ 63) (ret : Bytes) :
    ∃ p, packEach (pack elem) (isDynamicType elem) ⟨ret, [], firstOffset elem v⟩ v.elems = .ok p ∧
      p.bytes = ret ++ layout 32 word (v.elems.map (part elem)) := by
  rw [layout_length word_length] at hlen
  by_cases hdyn : isDynamicType elem = true
  · have hhead : headWidth 32 (v.elems.map (part elem)) = v.elems.length * 32 := by
      rw [headWidth_const (c := 32), length_map]
      intro p hp
      obtain ⟨x, hx, rfl⟩ := mem_map.mp hp
      exact (part_width hwf (hty x hx)).trans (typeSize_dynamic hdyn)
    have hoff : firstOffset elem v = ((v.elems.length * 32 : Nat) : Int) := by
      rw [firstOffset, if_pos hdyn,
        getTypeSize_eq hwf (by rw [typeSize_dynamic hdyn]; omega), typeSize_dynamic hdyn,
        int64_of_lt (by positivity) (by omega)]
      push_cast
      ring
    rw [hoff]
    refine ⟨_, packEach_eq (x := (ret, [], v.elems.length * 32)) hpack ?_,
      bytes_emit (.inl hhead.symm)⟩
    rw [tailEnd, ← hhead]
    exact hlen
  · have hinline : ∀ p ∈ v.elems.map (part elem), p.pointed = false := by
      intro p hp
      obtain ⟨x, _, rfl⟩ := mem_map.mp hp
      exact Bool.eq_false_iff.mpr hdyn
    rw [firstOffset, if_neg hdyn]
    refine ⟨_, packEach_eq (x := (ret, [], 0)) hpack ?_, bytes_emit (.inr hinline)⟩
    exact (congrArg (0 + List.length ·) (tails_inline hinline)).trans_lt (by decide)

/-! ## Values -/

theorem packElement_eq (h : HasType t v) (hseq : t.isSeq = false) (htuple : t.nests = false) :
    packElement t v = .ok (encodeElement t v) := by
  cases t with
  | int _ | uint _ | address | fixedBytes _ | function =>
    rw [HasType] at h
    obtain ⟨_, rfl, _⟩ := h
    rfl
  | bool | string | bytes =>
    rw [HasType] at h
    obtain ⟨_, rfl⟩ := h
    rfl
  | slice _ | array _ _ => cases hseq
  | tuple _ _ => cases htuple

theorem pack_leaf (h : HasType t v) (hbuild : t.buildable = true) (hseq : t.isSeq = false)
    (htuple : t.nests = false) : pack t v = .ok (encode t v) := by
  have hcheck := typeCheck_ok hbuild h
  have helem := packElement_eq h hseq htuple
  cases t with
  | int _ | uint _ | address | fixedBytes _ | function | bool | string | bytes =>
    show (typeCheck _ v >>= fun _ => packElement _ v) = _
    rw [hcheck]
    exact helem
  | slice _ | array _ _ => cases hseq
  | tuple _ _ => cases htuple


/-- A struct of the tuple's type holds every component under its own name. -/
theorem fields_found {rawNames : List Name} (hnd : (rawNames.map toCamelCase).Nodup)
    (hne : ∀ n ∈ rawNames, toCamelCase n ≠ []) (hlen : rawNames.length = vs.length) :
    ∃ fieldmap, mapArgNamesToStructFields rawNames (fieldNames rawNames) = .ok fieldmap ∧
      rawNames.map (fun n => (Value.struct (fieldNames rawNames) vs).fieldByName
        (fieldmap.abi2struct n)) = vs.map some := by
  rw [fieldNames_eq hnd]
  obtain ⟨q, hq, hown, _⟩ := pairNames_ok (p := ⟨fun _ => [], fun _ => []⟩) hnd hne
    (fun n hn => mem_map_of_mem hn) (fun _ _ => rfl) (fun _ _ => rfl)
  refine ⟨q, hq, ?_⟩
  rw [← lookup_zip_map hnd hlen]
  refine map_congr_left fun n hn => ?_
  rw [hown n hn]
  rfl

theorem HaveTypes.length_eq : ∀ {ts : List Ty} {vs : List Value}, HaveTypes ts vs →
    ts.length = vs.length
  | [], [], _ => rfl
  | _ :: _, _ :: _, h => by
    rw [HaveTypes] at h
    exact congrArg Nat.succ h.2.length_eq
  | [], _ :: _, h => by simp [HaveTypes] at h
  | _ :: _, [], h => by simp [HaveTypes] at h

/-- Every part is at most as long as the whole layout. -/
theorem body_le_layout {p : Piece UInt8} (h : p ∈ parts) :
    p.body.length ≤ (layout 32 word parts).length := by
  obtain ⟨pre, post, rfl⟩ := append_of_mem h
  rw [layout_length word_length, tails_append]
  by_cases hp : p.pointed = true
  · simp [tails, hp]
    omega
  · simp [Piece.width, hp]
    omega

/-- Once its components are found, a tuple is packed like a list of
arguments. -/
theorem packFields_eq {fieldmap : Pairing} : ∀ {ts : List Ty} {ns : List Name}
    {vs : List Value} {p : Packed},
    ns.map (fun n => v.fieldByName (fieldmap.abi2struct n)) = vs.map some →
    packFields ts ns v fieldmap p = packArgs ts vs p
  | [], _, _, _, _ => by rw [packFields, packArgs] <;> simp
  | _ :: _, [], [], _, _ => by rw [packFields, packArgs] <;> simp
  | t :: ts, n :: ns, u :: us, p, h => by
    rw [map_cons, map_cons, cons.injEq] at h
    rw [packFields, h.1]
    show (pack t u >>= fun val => packFields ts ns v fieldmap (p.add (isDynamicType t) val)) =
      pack t u >>= fun val => packArgs ts us (p.add (isDynamicType t) val)
    congr 1
    funext val
    exact packFields_eq h.2
  | _ :: _, [], _ :: _, _, h => by simp at h
  | _ :: _, _ :: _, [], _, h => by simp at h

mutual
theorem pack_eq : ∀ {t : Ty} {v : Value}, t.WellFormed → t.buildable = true → HasType t v →
    Clean t v → (encode t v).length < 2 ^ 63 → pack t v = .ok (encode t v)
  | .slice elem, v, hwf, hbuild, h, hclean, hlen => by
    have hcheck := typeCheck_ok hbuild h
    rw [HasType] at h
    rw [Clean] at hclean
    rw [Ty.WellFormed] at hwf
    obtain ⟨vs, rfl, hvs⟩ := h
    have hlayout : (layout 32 word (vs.map (part elem))).length < 2 ^ 63 := by
      rw [encode, length_append] at hlen
      exact (Nat.le_add_left _ _).trans_lt hlen
    have hpack : ∀ x ∈ vs, pack elem x = .ok (encode elem x) := fun x hx =>
      pack_eq hwf hbuild (hvs x hx) (hclean x hx)
        ((body_le_layout (mem_map_of_mem hx)).trans_lt hlayout)
    obtain ⟨p, hp, hbytes⟩ := packSeq_eq (v := .slice elem.kind vs) hwf hvs hpack hlayout
      (u256Bytes (Value.slice elem.kind vs).elems.length)
    rw [pack, hcheck]
    show (packEach _ _ _ (Value.elems _) >>= fun p => .ok p.bytes) = _
    rw [hp]
    exact congrArg Except.ok hbytes
  | .array n elem, v, hwf, hbuild, h, hclean, hlen => by
    have hcheck := typeCheck_ok hbuild h
    rw [HasType] at h
    rw [Clean] at hclean
    rw [Ty.WellFormed] at hwf
    rw [Ty.buildable, Bool.and_eq_true] at hbuild
    obtain ⟨vs, rfl, rfl, hvs⟩ := h
    have hlayout : (layout 32 word (vs.map (part elem))).length < 2 ^ 63 := by
      rw [encode] at hlen
      exact hlen
    have hpack : ∀ x ∈ vs, pack elem x = .ok (encode elem x) := fun x hx =>
      pack_eq hwf.2.2 hbuild.1 (hvs x hx) (hclean x hx)
        ((body_le_layout (mem_map_of_mem hx)).trans_lt hlayout)
    obtain ⟨p, hp, hbytes⟩ := packSeq_eq (v := .array elem.kind vs) hwf.2.2 hvs hpack hlayout []
    rw [pack, hcheck]
    show (packEach _ _ _ (Value.elems _) >>= fun p => .ok p.bytes) = _
    rw [hp]
    exact congrArg Except.ok hbytes
  | .tuple rawNames elems, v, hwf, hbuild, h, hclean, hlen => by
    have hcheck := typeCheck_ok hbuild h
    rw [HasType] at h
    rw [Clean] at hclean
    rw [Ty.WellFormed] at hwf
    obtain ⟨_, hnames, _, hne, hall⟩ := hwf
    obtain ⟨vs, rfl, hvs⟩ := h
    have hlayout : (layout 32 word (encodeFields elems vs)).length < 2 ^ 63 := by
      rw [encode] at hlen
      exact hlen
    have hhead := headWidth_fields hall hvs
    rw [layout_length word_length] at hlayout
    obtain ⟨fieldmap, hmap, hfound⟩ := fields_found hclean.1 hne (hnames.trans hvs.length_eq)
    have hfields := packArgs_eq (x := ([], [], sumSizes elems)) hall hvs hclean.2
      (by rw [tailEnd, ← hhead]; exact hlayout)
      (fun p hp => (body_le_layout hp).trans_lt (by rw [layout_length word_length]; exact hlayout))
    rw [pack, hcheck]
    show (mapArgNamesToStructFields rawNames (fieldNames rawNames) >>= fun fieldmap =>
      packFields elems rawNames _ fieldmap ⟨[], [], totalSize elems⟩ >>= fun p =>
        .ok p.bytes) = _
    rw [hmap]
    show (packFields elems rawNames _ fieldmap ⟨[], [], totalSize elems⟩ >>= fun p =>
      .ok p.bytes) = _
    rw [packFields_eq hfound, totalSize_eq hall (by omega)]
    rw [Packed.ofEmit] at hfields
    rw [hfields]
    exact congrArg Except.ok (bytes_emit (.inl hhead.symm))
  | .int _, _, _, hbuild, h, _, _ | .uint _, _, _, hbuild, h, _, _
  | .bool, _, _, hbuild, h, _, _ | .string, _, _, hbuild, h, _, _
  | .address, _, _, hbuild, h, _, _ | .fixedBytes _, _, _, hbuild, h, _, _
  | .bytes, _, _, hbuild, h, _, _ | .function, _, _, hbuild, h, _, _ =>
    pack_leaf h hbuild rfl rfl

theorem packArgs_eq : ∀ {ts : List Ty} {vs : List Value} {x : Bytes × Bytes × Nat},
    AllWellFormed ts → HaveTypes ts vs → CleanAll ts vs →
    tailEnd x (encodeFields ts vs) < 2 ^ 63 →
    (∀ p ∈ encodeFields ts vs, p.body.length < 2 ^ 63) →
    packArgs ts vs (Packed.ofEmit x) = .ok (Packed.ofEmit (emit word x (encodeFields ts vs)))
  | [], [], _, _, _, _, _, _ => rfl
  | t :: ts, v :: vs, x, hwf, h, hclean, hend, hlens => by
    rw [AllWellFormed] at hwf
    rw [HaveTypes] at h
    rw [CleanAll] at hclean
    rw [encodeFields] at hend hlens ⊢
    have hpack := pack_eq hwf.1 hwf.2.1 h.1 hclean.1 (hlens _ (mem_cons_self ..))
    have hle := le_tailEnd x ⟨isDynamicType t, encode t v⟩ (encodeFields ts vs)
    rw [packArgs, hpack]
    show packArgs ts vs ((Packed.ofEmit x).add (isDynamicType t) (encode t v)) = _
    rw [Packed.add_ofEmit fun hd => (hle hd).trans_lt hend]
    exact packArgs_eq hwf.2.2 h.2 hclean.2 ((tailEnd_emitPiece x _ _).trans_lt hend)
      (fun p hp => hlens p (mem_cons_of_mem _ hp))
  | [], _ :: _, _, _, h, _, _, _ => by simp [HaveTypes] at h
  | _ :: _, [], _, _, h, _, _, _ => by simp [HaveTypes] at h
end

/-- `Pack` writes the encoding of the arguments. -/
theorem Pack_eq (hwf : AllWellFormed ts) (h : HaveTypes ts vs) (hclean : CleanAll ts vs)
    (hlen : (encodeArgs ts vs).length < 2 ^ 63) : Pack ts vs = .ok (encodeArgs ts vs) := by
  have hhead := headWidth_fields hwf h
  have hlayout := hlen
  rw [encodeArgs, layout_length word_length] at hlayout
  have hargs := packArgs_eq (x := ([], [], sumSizes ts)) hwf h hclean
    (by rw [tailEnd, ← hhead]; exact hlayout) fun p hp => (body_le_layout hp).trans_lt hlen
  rw [Packed.ofEmit] at hargs
  rw [Pack, if_neg (not_not.mpr h.length_eq.symm), totalSize_eq hwf (by omega), hargs]
  exact congrArg Except.ok (bytes_emit (.inl hhead.symm))

/-! ## What is packed is clean -/

theorem packEach_ok :
    ∀ {vs : List Value} {p q : Packed}, packEach packElem d p vs = .ok q →
    ∀ v ∈ vs, ∃ b, packElem v = .ok b
  | v :: vs, p, q, h, u, hu => by
    rw [packEach] at h
    obtain ⟨b, hv, h⟩ := ok_of_bind h
    rcases mem_cons.mp hu with rfl | hu
    · exact ⟨b, hv⟩
    · exact packEach_ok h u hu

mutual
theorem clean_of_pack : ∀ {t : Ty} {v : Value} {b : Bytes}, t.WellFormed → t.buildable = true →
    HasType t v → pack t v = .ok b → Clean t v
  | .slice elem, v, b, hwf, hbuild, h, hpack => by
    rw [pack, typeCheck_ok hbuild h] at hpack
    rw [HasType] at h
    rw [Clean]
    rw [Ty.WellFormed] at hwf
    obtain ⟨vs, rfl, hvs⟩ := h
    change (packEach _ _ _ (Value.elems _) >>= fun p => .ok p.bytes) = _ at hpack
    obtain ⟨q, heach, hpack⟩ := ok_of_bind hpack
    intro x hx
    obtain ⟨c, hc⟩ := packEach_ok heach x hx
    exact clean_of_pack hwf hbuild (hvs x hx) hc
  | .array n elem, v, b, hwf, hbuild, h, hpack => by
    rw [pack, typeCheck_ok hbuild h] at hpack
    rw [HasType] at h
    rw [Clean]
    rw [Ty.WellFormed] at hwf
    rw [Ty.buildable, Bool.and_eq_true] at hbuild
    obtain ⟨vs, rfl, _, hvs⟩ := h
    change (packEach _ _ _ (Value.elems _) >>= fun p => .ok p.bytes) = _ at hpack
    obtain ⟨q, heach, hpack⟩ := ok_of_bind hpack
    intro x hx
    obtain ⟨c, hc⟩ := packEach_ok heach x hx
    exact clean_of_pack hwf.2.2 hbuild.1 (hvs x hx) hc
  | .tuple rawNames elems, v, b, hwf, hbuild, h, hpack => by
    rw [pack, typeCheck_ok hbuild h] at hpack
    rw [HasType] at h
    rw [Clean]
    rw [Ty.WellFormed] at hwf
    obtain ⟨_, hnames, hnd, hne, hall⟩ := hwf
    obtain ⟨vs, rfl, hvs⟩ := h
    change (mapArgNamesToStructFields rawNames (fieldNames rawNames) >>= fun fieldmap =>
      packFields elems rawNames (.struct (fieldNames rawNames) vs) fieldmap
        ⟨[], [], totalSize elems⟩ >>= fun p => .ok p.bytes) = _ at hpack
    obtain ⟨fieldmap, hmap, hpack⟩ := ok_of_bind hpack
    have hcamel : (rawNames.map toCamelCase).Nodup :=
      nodup_of_pairNames rawNames [] hmap hnd hne (fun _ _ => rfl)
        (fun c hc => (by cases hc)) nodup_nil
    obtain ⟨fieldmap', hmap', hfound⟩ :=
      fields_found hcamel hne (hnames.trans hvs.length_eq)
    obtain rfl := Except.ok.inj (hmap.symm.trans hmap')
    rw [packFields_eq hfound] at hpack
    obtain ⟨q, hargs, -⟩ := ok_of_bind hpack
    exact ⟨hcamel, cleanAll_of_packArgs hall hvs hargs⟩
  | .int _, _, _, _, _, _, _ | .uint _, _, _, _, _, _, _ | .bool, _, _, _, _, _, _
  | .string, _, _, _, _, _, _ | .address, _, _, _, _, _, _ | .fixedBytes _, _, _, _, _, _, _
  | .bytes, _, _, _, _, _, _ | .function, _, _, _, _, _, _ => trivial

theorem cleanAll_of_packArgs : ∀ {ts : List Ty} {vs : List Value} {p q : Packed},
    AllWellFormed ts → HaveTypes ts vs → packArgs ts vs p = .ok q → CleanAll ts vs
  | [], [], _, _, _, _, _ => trivial
  | t :: ts, v :: vs, p, q, hwf, h, hpack => by
    rw [AllWellFormed] at hwf
    rw [HaveTypes] at h
    rw [CleanAll]
    rw [packArgs] at hpack
    obtain ⟨b, hv, hpack⟩ := ok_of_bind hpack
    exact ⟨clean_of_pack hwf.1 hwf.2.1 h.1 hv, cleanAll_of_packArgs hwf.2.2 h.2 hpack⟩
  | [], _ :: _, _, _, _, h, _ => by simp [HaveTypes] at h
  | _ :: _, [], _, _, _, h, _ => by simp [HaveTypes] at h
end

theorem cleanAll_of_Pack {b : Bytes} (hwf : AllWellFormed ts) (h : HaveTypes ts vs)
    (hpack : Pack ts vs = .ok b) : CleanAll ts vs := by
  rw [Pack, if_neg (not_not.mpr h.length_eq.symm)] at hpack
  obtain ⟨q, hargs, hpack⟩ := ok_of_bind hpack
  exact cleanAll_of_packArgs hwf h hargs

end GoEthereum.Abi
