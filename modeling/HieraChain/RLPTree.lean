/-
  HieraChain/RLPTree.lean
  =======================
  **Trees of byte strings, written with `RLPStream` and read back strictly.**

  `Tree.encode` is the bytes of a tree.  A `Plan` is a way to write one: strings
  one by one, finished items in chunks, lists opened with their number of items.
  Every plan for a tree puts out its bytes (`Plan.write_eq`).  The reader takes
  the items of a list by the iterator or by `operator[]`; either way it accepts
  exactly the bytes of a tree (`read_iff`), so writing and reading are inverse
  to each other both ways (`canonical`).
-/
import HieraChain.Lists
import HieraChain.RLPAccess

namespace HieraChain.RLP

open HieraChain.BigEndian

/-! ### Trees -/

inductive Tree
  | str (b : Bytes)
  | list (ts : List Tree)

mutual

def Tree.encode : Tree → Bytes
  | .str b => strItem b
  | .list ts => listItem (encodeAll ts)

def encodeAll : List Tree → Bytes
  | [] => []
  | t :: ts => t.encode ++ encodeAll ts

end

def Tree.payload : Tree → Bytes
  | .str b => b
  | .list ts => encodeAll ts

theorem encodeAll_append (ts us : List Tree) : encodeAll (ts ++ us) = encodeAll ts ++ encodeAll us := by
  induction ts with
  | nil => rfl
  | cons t ts ih => rw [List.cons_append, encodeAll, encodeAll, ih, List.append_assoc]

/-! ### Reading -/

inductive Mode
  | iteration
  | index

/-- `operator[]` for `k` indices from `i` on. -/
def accessFrom (d : Bytes) : Nat → Nat → Cache → Except RLPError (List Bytes)
  | 0, _, _ => .ok []
  | k + 1, i, c => do
    let x ← (access d c i).2
    return x :: (← accessFrom d k (i + 1) (access d c i).1)

def children (d : Bytes) : Mode → Except RLPError (List Bytes)
  | .iteration => do
    let pl ← payload d
    items pl.length pl
  | .index => do
    let n ← itemCountStrict d
    accessFrom d n 0 {}

/-- The tree of an object; the fuel is its length, and every item of a list is
    shorter than the list. -/
def readItem (mode : Mode) : Nat → Bytes → Except RLPError Tree
  | 0, _ => .error .badCast
  | fuel + 1, d =>
    if isData d then return .str (← toBytes d)
    else if isList d then return .list (← (← children d mode).mapM (readItem mode fuel))
    else .error .badCast

def read (mode : Mode) (d : Bytes) : Except RLPError Tree := do
  let d ← ofVeryStrict d
  readItem mode d.length d

/-! ### Writing -/

inductive Plan
  | append (b : Bytes)
  | appendList (ps : List Plan)
  | appendRaw (ts : List Tree)

mutual

def Plan.trees : Plan → List Tree
  | .append b => [.str b]
  | .appendList ps => [.list (treesOfAll ps)]
  | .appendRaw ts => ts

def treesOfAll : List Plan → List Tree
  | [] => []
  | p :: ps => p.trees ++ treesOfAll ps

end

mutual

def Plan.write : Plan → RLPStream → Except RLPError RLPStream
  | .append b, s => appendBytes s b
  | .appendList ps, s => do writeAll ps (← RLP.appendList s (treesOfAll ps).length)
  | .appendRaw ts, s => RLP.appendRaw s (encodeAll ts) ts.length

def writeAll : List Plan → RLPStream → Except RLPError RLPStream
  | [], s => .ok s
  | p :: ps, s => do writeAll ps (← p.write s)

end

def Plan.chunk (p : Plan) : Chunk where
  write := p.write
  bytes := encodeAll p.trees
  count := p.trees.length

theorem Plan.chunk_ok_iff (p : Plan) : p.chunk.Ok ↔ Puts p.write (encodeAll p.trees) p.trees.length :=
  and_iff_left fun h => by
    change encodeAll p.trees = []
    rw [List.eq_nil_of_length_eq_zero h]
    rfl

theorem sum_count (ps : List Plan) : ((ps.map Plan.chunk).map Chunk.count).sum = (treesOfAll ps).length := by
  induction ps with
  | nil => rfl
  | cons p ps ih =>
    rw [List.map_cons, List.map_cons, List.sum_cons, ih, treesOfAll, List.length_append]
    rfl

theorem flatten_bytes (ps : List Plan) : ((ps.map Plan.chunk).map Chunk.bytes).flatten = encodeAll (treesOfAll ps) := by
  induction ps with
  | nil => rfl
  | cons p ps ih =>
    rw [List.map_cons, List.map_cons, List.flatten_cons, ih, treesOfAll, encodeAll_append]
    rfl

theorem foldlM_write (ps : List Plan) (s : RLPStream) :
    ((ps.map Plan.chunk).map Chunk.write).foldlM (fun s f => f s) s = writeAll ps s := by
  induction ps generalizing s with
  | nil => rfl
  | cons p ps ih =>
    rw [List.map_cons, List.map_cons, List.foldlM_cons, writeAll]
    change (p.write s >>= fun s => _) = (p.write s >>= fun s => writeAll ps s)
    cases p.write s with
    | error e => rfl
    | ok s' => exact ih s'

mutual

/-- **Every plan puts out the bytes of its trees.** -/
theorem Plan.puts : (p : Plan) → Puts p.write (encodeAll p.trees) p.trees.length
  | .append b => fun s => by
    rw [Plan.write, Plan.trees, encodeAll, encodeAll, List.append_nil]
    exact appendBytes_eq s b
  | .appendList ps => fun s => by
    have hlist := appends_chunks (ps.map Plan.chunk) (fun c hc => by
      obtain ⟨p, hp, rfl⟩ := List.mem_map.mp hc
      exact p.chunk_ok_iff.mpr (puts_of_mem ps p hp)) s
    simp only [sum_count, flatten_bytes, foldlM_write] at hlist
    rw [Plan.write, Plan.trees, encodeAll, encodeAll, List.append_nil]
    exact hlist
  | .appendRaw ts => fun s => rfl

theorem puts_of_mem : (ps : List Plan) → ∀ p ∈ ps, Puts p.write (encodeAll p.trees) p.trees.length
  | [] => fun _ h => nomatch h
  | q :: qs => fun p h => by
    rcases List.mem_cons.mp h with heq | h
    · rw [heq]
      exact Plan.puts q
    · exact puts_of_mem qs p h

end

theorem Plan.write_eq {p : Plan} {t : Tree} (h : p.trees = [t]) : (p.write {} >>= out) = .ok t.encode := by
  rw [p.puts, h, encodeAll, encodeAll, List.append_nil]
  rfl

/-! ### What is read -/

theorem encodeAll_eq (ts : List Tree) : encodeAll ts = (ts.map Tree.encode).flatten := by
  induction ts with
  | nil => rfl
  | cons t ts ih => rw [encodeAll, ih, List.map_cons, List.flatten_cons]

theorem lastIndex_walk_le (d : Bytes) (k : Nat) (c : Cache) : (walk d k c).1.lastIndex ≤ c.lastIndex + k := by
  induction k generalizing c with
  | zero => exact le_rfl
  | succ k ih =>
    rw [walk]
    split
    · exact Nat.le_add_right _ _
    · split
      · exact Nat.le_add_right _ _
      · split
        · exact Nat.le_add_right _ _
        · refine (ih _).trans ?_
          change c.lastIndex + 1 + k ≤ _
          omega

theorem lastIndex_access_le {d pl : Bytes} (hpl : payload d = .ok pl) {n : Nat} (hn : sizeAsEncoded pl = .ok n)
    (c : Cache) (i : Nat) : (access d c i).1.lastIndex ≤ i := by
  rw [access, rewind_eq hpl, hn]
  split
  next hfail =>
    split at hfail
    · cases hfail
    · cases hfail
  next c' hc' =>
    refine (lastIndex_walk_le d _ c').trans ?_
    split at hc'
    · cases hc'
      change 0 + (i - 0) ≤ i
      omega
    next hge =>
      cases hc'
      omega

theorem accessFrom_eq {d : Bytes} (pre : Items) {its : Items} (hpl : payload d = .ok (pre ++ its : Items).bytes)
    (hall : ∀ it ∈ pre ++ its, Item it.1 it.2) {c : Cache}
    (hc : c = {} ∨ Follows (pre ++ its : Items).bytes c ∧ c.lastIndex < pre.length) :
    accessFrom d its.length pre.length c = .ok (its.map Prod.fst) := by
  induction its generalizing pre c with
  | nil => rfl
  | cons it its ih =>
    have hitem : itemAt (pre ++ it :: its : Items).bytes pre.length = .ok it.1 := by
      have hget : (pre ++ it :: its)[pre.length]? = some it := by
        rw [List.getElem?_append_right le_rfl, Nat.sub_self]
        rfl
      have hat := itemAt_of_items hall hget []
      rwa [List.append_nil] at hat
    have hlt : pre.length < ({} : Cache).lastIndex := by
      have hle := length_le_bytes fun j hj => (hall j hj).isItem
      have hmax := length_payload_lt hpl
      rw [List.length_append, List.length_cons] at hle
      change pre.length < sizeMax
      omega
    obtain ⟨n, hn⟩ : ∃ n, sizeAsEncoded (pre ++ it :: its : Items).bytes = .ok n := by
      cases hn : sizeAsEncoded (pre ++ it :: its : Items).bytes with
      | error e =>
        rw [itemAt_error hn] at hitem
        cases hitem
      | ok n => exact ⟨n, rfl⟩
    have hlast := lastIndex_access_le hpl hn c pre.length
    have hstep : (access d c pre.length).2 = .ok it.1 ∧
        ((access d c pre.length).1 = {} ∨ Follows (pre ++ it :: its : Items).bytes (access d c pre.length).1) := by
      rcases hc with rfl | ⟨hfollows, hindex⟩
      · rw [← hitem]
        exact access_of_lt hpl hlt
      · obtain ⟨hout, hnext⟩ := access_of_ne hpl hfollows (Nat.ne_of_gt hindex)
        exact ⟨hout.trans hitem, Or.inr hnext⟩
    have hsplit : pre ++ it :: its = pre ++ [it] ++ its := by rw [List.append_assoc, List.singleton_append]
    rw [hsplit] at hpl hall hstep
    have hrest := ih (pre ++ [it]) hpl hall (c := (access d c pre.length).1) (hstep.2.imp id fun hnext => ⟨hnext, by
      rw [List.length_append, List.length_singleton]
      omega⟩)
    rw [List.length_append, List.length_singleton] at hrest
    rw [List.length_cons, accessFrom, hstep.1]
    change (accessFrom d its.length (pre.length + 1) _ >>= fun xs => Except.ok (it.1 :: xs)) = _
    rw [hrest]
    rfl

/-- **Items of a list**, by either way. -/
theorem children_iff {d : Bytes} (hlist : isList d = true) (mode : Mode) (xs : List Bytes) :
    children d mode = .ok xs ↔
      ∃ its : Items, (∀ it ∈ its, Item it.1 it.2) ∧ payload d = .ok its.bytes ∧ xs = its.map Prod.fst := by
  cases hpl : payload d with
  | error e =>
    refine iff_of_false ?_ (by rintro ⟨its, -, hbytes, -⟩; cases hbytes)
    cases mode with
    | iteration =>
      rw [children, hpl]
      exact fun h => by cases h
    | index =>
      rw [children, itemCountStrict, if_pos hlist, hpl]
      exact fun h => by cases h
  | ok pl =>
    cases mode with
    | iteration =>
      rw [children, hpl]
      change items pl.length pl = _ ↔ _
      constructor
      · intro h
        obtain ⟨its, hall, rfl, rfl⟩ := items_spec h le_rfl
        exact ⟨its, hall, rfl, rfl⟩
      · rintro ⟨its, hall, hbytes, rfl⟩
        cases hbytes
        have hitems : ∀ it ∈ its, IsItem it.1 it.2 := fun it hit => (hall it hit).isItem
        exact items_of_items hitems (length_le_bytes hitems)
    | index =>
      have hfrom : ∀ its : Items, (∀ it ∈ its, Item it.1 it.2) → pl = its.bytes →
          accessFrom d its.length 0 {} = .ok (its.map Prod.fst) := by
        rintro its hall rfl
        exact accessFrom_eq [] hpl hall (Or.inl rfl)
      rw [children, itemCountStrict, if_pos hlist, hpl]
      change (itemCountFrom pl.length pl >>= fun n => accessFrom d n 0 {}) = _ ↔ _
      constructor
      · intro h
        cases hn : itemCountFrom pl.length pl with
        | error e =>
          rw [hn] at h
          cases h
        | ok n =>
          obtain ⟨its, hall, hbytes, rfl⟩ := itemCountFrom_spec hn le_rfl
          rw [hn] at h
          change accessFrom d its.length 0 {} = _ at h
          rw [hfrom its hall hbytes] at h
          exact ⟨its, hall, congrArg Except.ok hbytes, (Except.ok.inj h).symm⟩
      · rintro ⟨its, hall, hbytes, rfl⟩
        have hitems : ∀ it ∈ its, IsItem it.1 it.2 := fun it hit => (hall it hit).isItem
        rw [← hfrom its hall (Except.ok.inj hbytes), Except.ok.inj hbytes,
          itemCountFrom_of_items hitems (length_le_bytes hitems)]
        rfl

/-! ### Trees and their bytes -/

theorem Tree.length_payload_le (t : Tree) : t.payload.length ≤ t.encode.length := by
  cases t with
  | str b =>
    rw [Tree.encode, Tree.payload, strItem]
    split
    · exact le_rfl
    · rw [List.length_append]
      exact Nat.le_add_left _ _
  | list ts =>
    rw [Tree.encode, Tree.payload, listItem, List.length_append]
    exact Nat.le_add_left _ _

theorem Tree.item {t : Tree} (hsize : SizeOk t.payload.length) : Item t.encode t.payload := by
  cases t with
  | str b => exact ⟨hsize, Or.inl rfl⟩
  | list ts => exact ⟨hsize, Or.inr rfl⟩

theorem length_encode_le {t : Tree} {ts : List Tree} (h : t ∈ ts) : t.encode.length ≤ (encodeAll ts).length := by
  induction ts with
  | nil => cases h
  | cons u us ih =>
    rw [encodeAll, List.length_append]
    rcases List.mem_cons.mp h with rfl | h
    · exact Nat.le_add_right _ _
    · exact (ih h).trans (Nat.le_add_left _ _)

theorem length_lt_listItem (p : Bytes) : p.length < (listItem p).length := by
  rw [listItem, List.length_append, sizePrefix]
  split
  · exact Nat.lt_add_of_pos_left Nat.one_pos
  · exact Nat.lt_add_of_pos_left (Nat.succ_pos _)

theorem length_item_le {its : Items} {it : Bytes × Bytes} (h : it ∈ its) : it.1.length ≤ its.bytes.length := by
  induction its with
  | nil => cases h
  | cons it' its ih =>
    rw [Items.bytes_cons, List.length_append]
    rcases List.mem_cons.mp h with rfl | h
    · exact Nat.le_add_right _ _
    · exact (ih h).trans (Nat.le_add_left _ _)

def itemsOf (ts : List Tree) : Items := ts.map fun t => (t.encode, t.payload)

theorem bytes_itemsOf (ts : List Tree) : (itemsOf ts).bytes = encodeAll ts := by
  rw [encodeAll_eq, Items.bytes, itemsOf, List.map_map]
  rfl

theorem Item.payload_unique {x p q : Bytes} (hp : Item x p) (hq : Item x q) : p = q :=
  Except.ok.inj (hp.payload_eq.symm.trans hq.payload_eq)

theorem bytes_of_encode {its : Items} {ts : List Tree}
    (h : List.Forall₂ (fun x t => x = Tree.encode t) (its.map Prod.fst) ts) : its.bytes = encodeAll ts := by
  have heq : its.map Prod.fst = ts.map Tree.encode := List.forall₂_eq_eq_eq ▸ List.forall₂_map_right_iff.mpr h
  rw [Items.bytes, heq, encodeAll_eq]

/-- **An item reads as a tree exactly when it is the bytes of the tree.** -/
theorem readItem_iff (mode : Mode) {fuel : Nat} {d p : Bytes} (hitem : Item d p) (hfuel : d.length ≤ fuel) (t : Tree) :
    readItem mode fuel d = .ok t ↔ d = t.encode ∧ SizeOk t.payload.length := by
  induction fuel generalizing d p t with
  | zero => exact absurd (List.eq_nil_of_length_eq_zero (Nat.eq_zero_of_le_zero hfuel)) hitem.isItem.ne_nil
  | succ fuel ih =>
    rw [readItem]
    by_cases hdata : isData d = true
    · have hbytes : toBytes d = .ok p := by rw [toBytes, if_pos hdata, hitem.payload_eq]
      rw [if_pos hdata, hbytes]
      change Except.ok (Tree.str p) = _ ↔ _
      constructor
      · intro h
        cases h
        exact ⟨hitem.eq_strItem hdata, hitem.1⟩
      · rintro ⟨hd, hsize⟩
        have heq : p = t.payload := hitem.payload_unique (hd ▸ Tree.item hsize)
        cases t with
        | str b => rw [heq, Tree.payload]
        | list ts =>
          have hlist : isData d = false := by
            rw [hd]
            exact isData_listItem hsize
          rw [hlist] at hdata
          cases hdata
    · have hlist : isList d = true := by
        obtain ⟨hsize, rfl | rfl⟩ := hitem
        · exact absurd (isData_strItem hsize) hdata
        · exact isList_listItem hsize
      have hd := hitem.eq_listItem hlist
      have hpl := hitem.payload_eq
      have hlt := length_lt_listItem p
      rw [← hd] at hlt
      rw [if_neg hdata, if_pos hlist]
      constructor
      · intro h
        cases hxs : children d mode with
        | error e =>
          rw [hxs] at h
          cases h
        | ok xs =>
          rw [hxs] at h
          change (xs.mapM (readItem mode fuel) >>= fun ts => Except.ok (Tree.list ts)) = _ at h
          cases hts : xs.mapM (readItem mode fuel) with
          | error e =>
            rw [hts] at h
            cases h
          | ok ts =>
            rw [hts] at h
            cases h
            obtain ⟨its, hall, hbytes, rfl⟩ := (children_iff hlist mode xs).mp hxs
            have hp : p = its.bytes := Except.ok.inj (hpl.symm.trans hbytes)
            obtain ⟨hlen, hread⟩ := List.forall₂_iff_zip.mp (Lists.mapM_ok_iff.mp hts)
            have hencode : List.Forall₂ (fun x t => x = Tree.encode t) (its.map Prod.fst) ts := by
              refine List.forall₂_iff_zip.mpr ⟨hlen, fun {x t} hmem => ?_⟩
              obtain ⟨it, hit, rfl⟩ := List.mem_map.mp (List.of_mem_zip hmem).1
              have hle := length_item_le hit
              rw [← hp] at hle
              exact ((ih (hall it hit) (by omega) t).mp (hread hmem)).1
            have hbytes' := bytes_of_encode hencode
            rw [← hp] at hbytes'
            refine ⟨?_, ?_⟩
            · rw [Tree.encode, ← hbytes']
              exact hd
            · rw [Tree.payload, ← hbytes']
              exact hitem.1
      · rintro ⟨henc, hsize⟩
        have heq : p = t.payload := hitem.payload_unique (henc ▸ Tree.item hsize)
        cases t with
        | str b =>
          rw [henc] at hdata
          exact absurd (isData_strItem hsize) hdata
        | list ts =>
          rw [Tree.payload] at heq hsize
          have hsizes : ∀ t ∈ ts, SizeOk t.payload.length := fun t ht =>
            hsize.mono (t.length_payload_le.trans (length_encode_le ht))
          have hchildren : children d mode = .ok (ts.map Tree.encode) := by
            refine (children_iff hlist mode _).mpr ⟨itemsOf ts, ?_, ?_, ?_⟩
            · intro it hit
              obtain ⟨t, ht, rfl⟩ := List.mem_map.mp hit
              exact Tree.item (hsizes t ht)
            · rw [hpl, heq, bytes_itemsOf]
            · rw [itemsOf, List.map_map]
              rfl
          have hread : (ts.map Tree.encode).mapM (readItem mode fuel) = .ok ts := by
            refine Lists.mapM_ok_iff.mpr (List.forall₂_map_left_iff.mpr (List.forall₂_same.mpr fun t ht => ?_))
            have hle := length_encode_le ht
            rw [← heq] at hle
            exact (ih (Tree.item (hsizes t ht)) (by omega) t).mpr ⟨rfl, hsizes t ht⟩
          rw [hchildren]
          change ((ts.map Tree.encode).mapM (readItem mode fuel) >>= fun ts => Except.ok (Tree.list ts)) = _
          rw [hread]
          rfl

/-- **Strict reading accepts exactly the bytes of trees.** -/
theorem read_iff (mode : Mode) (d : Bytes) (t : Tree) :
    read mode d = .ok t ↔ d = t.encode ∧ SizeOk t.payload.length := by
  constructor
  · intro h
    cases hd : ofVeryStrict d with
    | error e =>
      rw [read, hd] at h
      cases h
    | ok x =>
      rw [read, hd] at h
      change readItem mode x.length x = _ at h
      by_cases hnil : d = []
      · subst hnil
        cases hd
        cases h
      · obtain ⟨rfl, p, hitem⟩ := item_of_ofVeryStrict hnil hd
        exact (readItem_iff mode hitem le_rfl t).mp h
  · rintro ⟨rfl, hsize⟩
    have hitem := Tree.item hsize
    rw [read, hitem.isItem.ofVeryStrict_eq]
    exact (readItem_iff mode hitem le_rfl t).mpr ⟨rfl, hsize⟩

/-- **Writing and reading are inverse to each other**, for every tree whose
    bytes fit a `std::vector`, every way to write it and either way to read it;
    and the accesses to an object are those to a fresh one, and those of the
    iterator, exactly when every access of the sequence is `Ok`. -/
theorem canonical (mode : Mode) (p : Plan) (t : Tree) (d : Bytes) (is : List (BitVec 64)) :
    (p.trees = [t] → t.encode.length < 2 ^ 63 → ∃ x, (p.write {} >>= out) = .ok x ∧ read mode x = .ok t) ∧
      (read mode d = .ok t → p.trees = [t] → (p.write {} >>= out) = .ok d) ∧
      ((accesses d).RunOk (Access.Right d) {} is ↔ (accesses d).RunOk (Access.Ok d) {} is) := by
  refine ⟨?_, ?_, runRight_iff d is⟩
  · intro htrees hfits
    have hsize : SizeOk t.payload.length := by
      have hle := t.length_payload_le
      unfold SizeOk sizeMax
      omega
    exact ⟨t.encode, Plan.write_eq htrees, (read_iff mode _ t).mpr ⟨rfl, hsize⟩⟩
  · intro hread htrees
    rw [Plan.write_eq htrees, ((read_iff mode d t).mp hread).1]

/-- The list of `0x01` and of a string that lacks a byte: after the access at 1
    has thrown, the one at 0 throws too. -/
theorem access_after_throw :
    ¬(accesses [0xc3, 0x01, 0x82, 0xaa]).RunOk (Access.Right [0xc3, 0x01, 0x82, 0xaa]) {} [0, 1, 0] := by
  unfold Access.Right
  decide +kernel

end HieraChain.RLP
