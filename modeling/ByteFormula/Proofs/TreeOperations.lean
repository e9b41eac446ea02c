import ByteFormula.Proofs.TreeVisits

/-! The operations on a tree against those on the plain byte string that it stands for. -/
namespace ByteFormula.Tree

variable {loose : Bool}

private theorem Open.array_eq {tree : Tree} {raw : Bytes} {now : List Bytes}
    (h : Open loose tree raw now) :
    ∃ elements cached, tree.array = ⟨.opened elements cached, maxElements⟩ ∧
      elements.size = now.length := by
  obtain ⟨hrep, hopen, hunpack⟩ := h
  cases hrep with
  | packed => cases hopen
  | opened hraw hsize =>
    cases hunpack.symm.trans hraw
    exact ⟨_, _, rfl, hsize⟩

private theorem readsAs_length :
    ReadsAs loose (fun value other => other = value) (onArray LazyArray.length)
      (fun elements => .ok elements.length) := by
  intro tree raw now h
  obtain ⟨elements, cached, harray, hsize⟩ := h.array_eq
  refine ⟨_, tree, ?_, answers_eq.mpr rfl, h.standsFor, rfl⟩
  have hlength : tree.array.length = (.ok now.length, tree.array) := by
    rw [harray, ← hsize]
    rfl
  simp only [onArray, hlength, withArray_array]

private theorem readsAs_isFull :
    ReadsAs loose (fun value other => other = value) (onArray LazyArray.isFull)
      (fun elements => .ok (decide (maxElements ≤ elements.length))) := by
  intro tree raw now h
  obtain ⟨elements, cached, harray, hsize⟩ := h.array_eq
  refine ⟨_, tree, ?_, answers_eq.mpr rfl, h.standsFor, rfl⟩
  have hfull : tree.array.isFull = (.ok (decide (maxElements ≤ now.length)), tree.array) := by
    rw [harray, ← hsize]
    rfl
  simp only [onArray, hfull, withArray_array]

private theorem readsAs_elementBytes (trail : Path) (index : UInt8) :
    ReadsAs loose (Rereads loose) (elementBytes (trail.child index) index)
      (PlainTree.element trail index) := by
  intro tree raw now h
  cases hbranch : tree.branches.get? index with
  | some child =>
    obtain ⟨own, hown, hchild⟩ := h.branch hbranch
    obtain ⟨value, after, hbytes, hvalue, hafter, hmark⟩ := hchild.bytes
    refine ⟨.ok value, _, ?_, ?_, h.put hown hafter (hmark.trans ?_), rfl⟩
    · simp only [elementBytes, hbranch, hbytes]
    · simp only [PlainTree.element, hown]
      exact hvalue
    · simp only [Branches.pending, hbranch]
  | none =>
    obtain ⟨elements, cached, harray, -⟩ := h.array_eq
    have hopened : tree.array.materialize = .ok tree.array := by
      rw [harray]
      rfl
    have hget := Open.get (by rwa [withArray_array]) hopened hbranch
    refine ⟨PlainTree.element trail index now, tree, ?_, answers_refl (fun _ => .inl rfl) _,
      h.standsFor, rfl⟩
    simp only [elementBytes, hbranch, hget, PlainTree.element]
    cases now[index.toNat]? <;> simp

private theorem writesAs_pushElement (data : Bytes) :
    WritesAs loose (pushElement data) (PlainTree.append data) := by
  intro tree raw now h
  obtain ⟨hrep, hopen, hunpack⟩ := h
  cases hrep with
  | packed => cases hopen
  | @opened elements cached branches dirty unwritten _ now' hraw hsize hsorted hinside hbranch
      hplain hclean hdirty hpending =>
    cases hunpack.symm.trans hraw
    unfold PlainTree.append
    cases hclass : LengthClass.forLength data.length with
    | error e =>
      refine ⟨fun e' hfail => ?_, fun _ _ habsurd => by cases habsurd⟩
      cases hfail
      refine ⟨.node ⟨.opened elements cached, maxElements⟩ branches dirty unwritten, ?_, fun _ =>
        ⟨.opened hraw hsize hsorted hinside hbranch hplain hclean hdirty hpending, rfl⟩⟩
      simp only [pushElement, array, LazyArray.push, hclass]
      rfl
    | ok c =>
      have hdata := (LengthClass.forLength_ok_iff _).mp ⟨c, hclass⟩
      have hlimit := Packing.length_unpack hraw
      by_cases hroom : maxElements ≤ now.length
      · simp only [if_pos hroom]
        refine ⟨fun e hfail => ?_, fun _ _ habsurd => by cases habsurd⟩
        cases hfail
        refine ⟨.node ⟨.opened elements none, maxElements⟩ branches dirty unwritten, ?_, ?_⟩
        · simp only [pushElement, array, LazyArray.push, hclass, LazyArray.materialize, hsize,
            if_pos hroom]
          rfl
        -- The cached bytes are gone, and the full array will be packed anew.
        · rintro (hloose | habsurd)
          · obtain ⟨value, hpack⟩ := exists_pack hraw hdata hlimit fun _ => .inl
            refine ⟨.opened hraw hsize hsorted hinside hbranch hplain (fun hflag => ?_)
              (fun hflag => ⟨(hdirty hflag).1, .inl rfl⟩) hpending, rfl⟩
            exact ⟨(hclean hflag).1, value, hpack, .inr ⟨hloose, now, hraw, by omega, hpack⟩⟩
          · cases habsurd
      · simp only [if_neg hroom]
        refine ⟨fun _ habsurd => (by cases habsurd), fun answer changed hchange => ?_⟩
        cases hchange
        have hlength : (now ++ [data]).length ≤ maxElements := by
          simp only [List.length_append, List.length_singleton]
          omega
        obtain ⟨packed, hpack⟩ : ∃ packed, Packing.pack (now ++ [data]) = .ok packed :=
          exists_pack hraw hdata hlength (by simp)
        refine ⟨packed, .node ⟨.opened (elements.push data) none, maxElements⟩ branches dirty
          unwritten, hpack, ?_, ?_⟩
        · simp only [pushElement, array, LazyArray.push, hclass, LazyArray.materialize, hsize,
            if_neg hroom]
          rfl
        · refine .opened (Packing.unpack_pack hpack hlength) (by simp [hsize]) hsorted ?_ ?_ ?_
            (fun habsurd => by cases habsurd) (fun _ => ⟨rfl, .inl rfl⟩) fun _ => hpack
          · intro index child hchild
            have := hinside index child hchild
            simp only [List.length_append, List.length_singleton]
            omega
          · intro index child own hchild hown
            rw [List.getElem?_append_left (hinside index child hchild)] at hown
            exact hbranch index child own hchild hown
          · intro index hindex
            have hold := hplain index hindex
            rw [Array.getElem?_push, List.getElem?_append]
            grind

private theorem writesAs_setElement (index : UInt8) (data : Bytes) :
    WritesAs loose (setElement index data) (PlainTree.replace index data) := by
  intro tree raw now h
  obtain ⟨hrep, hopen, hunpack⟩ := h
  cases hrep with
  | packed => cases hopen
  | @opened elements cached branches dirty unwritten _ now' hraw hsize hsorted hinside hbranch
      hplain hclean hdirty hpending =>
    cases hunpack.symm.trans hraw
    -- Whatever is wrong with the index or the data, the array keeps its cached bytes.
    have hkept : StandsFor loose (.node ⟨.opened elements cached, maxElements⟩ branches dirty
        unwritten) raw :=
      .opened hraw hsize hsorted hinside hbranch hplain hclean hdirty hpending
    unfold PlainTree.replace
    cases hclass : LengthClass.forLength data.length with
    | error e =>
      refine ⟨fun e' hfail => ?_, fun _ _ habsurd => by cases habsurd⟩
      cases hfail
      refine ⟨_, ?_, fun _ => ⟨hkept, rfl⟩⟩
      simp only [setElement, array, LazyArray.set, hclass]
      rfl
    | ok c =>
      have hdata := (LengthClass.forLength_ok_iff _).mp ⟨c, hclass⟩
      by_cases hin : index.toNat < now.length
      · simp only [if_pos hin]
        refine ⟨fun _ habsurd => (by cases habsurd), fun answer changed hchange => ?_⟩
        cases hchange
        have hlength : (now.set index.toNat data).length ≤ maxElements := by
          rw [List.length_set]
          exact Packing.length_unpack hraw
        obtain ⟨packed, hpack⟩ := exists_pack hraw hdata hlength fun _ => List.mem_or_eq_of_mem_set
        refine ⟨packed, .node ⟨.opened (elements.setIfInBounds index.toNat data) none, maxElements⟩
          (branches.erase index) dirty unwritten, hpack, ?_, ?_⟩
        · simp only [setElement, array, LazyArray.set, hclass, LazyArray.materialize, hsize,
            if_pos hin]
          rfl
        · have hother {i : UInt8} (hne : index ≠ i) : (now.set index.toNat data)[i.toNat]? =
              now[i.toNat]? := List.getElem?_set_ne fun heq => hne (UInt8.toNat_inj.mp heq)
          change StandsFor loose (.node ⟨.opened (elements.setIfInBounds index.toNat data) none,
            maxElements⟩ (branches.erase index) true true) packed
          refine .opened (Packing.unpack_pack hpack hlength) (by simp [hsize])
            (hsorted.erase index) ?_ ?_ ?_ (fun habsurd => by cases habsurd)
            (fun _ => ⟨rfl, .inl rfl⟩) fun _ => hpack
          · intro i child hchild
            rw [Branches.get?_erase] at hchild
            split at hchild
            · cases hchild
            · rw [List.length_set]
              exact hinside i child hchild
          · intro i child own hchild hown
            rw [Branches.get?_erase] at hchild
            split at hchild
            · cases hchild
            · exact hbranch i child own hchild (hother ‹_› ▸ hown)
          · intro i hi
            by_cases heq : index = i
            · subst heq
              simp [hsize, hin]
            · have hne : index.toNat ≠ i.toNat := fun h => heq (UInt8.toNat_inj.mp h)
              have hwritten : branches.pending i = false := by
                simpa [Branches.pending, Branches.get?_erase, heq] using hi
              rw [hother heq, Array.getElem?_setIfInBounds_ne hne]
              exact hplain i hwritten
      · simp only [if_neg hin]
        refine ⟨fun e hfail => ?_, fun _ _ habsurd => by cases habsurd⟩
        cases hfail
        refine ⟨_, ?_, fun _ => ⟨hkept, rfl⟩⟩
        simp only [setElement, array, LazyArray.set, hclass, LazyArray.materialize, hsize,
          if_neg hin]
        rfl

theorem StandsFor.bytesAt {tree : Tree} {raw : Bytes} (h : tree.StandsFor loose raw) (path : Path) :
    ∃ result after, tree.bytesAt path = (result, after) ∧
      Answers (Rereads loose) (PlainTree.bytesAt raw path) result ∧ after.StandsFor loose raw := by
  cases hlast : path.getLast? with
  | none =>
    obtain ⟨value, after, hbytes, hvalue, hafter, -⟩ := h.bytes
    refine ⟨.ok value, after, ?_, ?_, hafter⟩
    · simp only [Tree.bytesAt, hlast, hbytes]
    · simp only [PlainTree.bytesAt, hlast]
      exact hvalue
  | some index =>
    have hpath : Path.child path.dropLast index = path := by
      obtain ⟨front, rfl⟩ := List.getLast?_eq_some_iff.mp hlast
      rw [List.dropLast_concat]
      rfl
    have hread : ReadsAs loose (Rereads loose) _ _ := readsAs_elementBytes path.dropLast index
    rw [hpath] at hread
    obtain ⟨result, after, hrun, hanswers, hafter, -⟩ := h.visit_read hread [] path.dropLast
    refine ⟨result, after, ?_, ?_, hafter⟩
    · simp only [Tree.bytesAt, hlast, hrun]
    · simpa only [PlainTree.bytesAt, hlast] using hanswers

theorem Represents.bytesAt {tree : Tree} {raw : Bytes} (h : tree.Represents raw) (path : Path) :
    ∃ after, tree.bytesAt path = (PlainTree.bytesAt raw path, after) ∧ after.Represents raw := by
  obtain ⟨result, after, hrun, hanswers, hafter⟩ := StandsFor.bytesAt h path
  rw [rereads_false, answers_eq] at hanswers
  exact ⟨after, hanswers ▸ hrun, hafter⟩

theorem StandsFor.lengthAt {tree : Tree} {raw : Bytes} (h : tree.StandsFor loose raw)
    (path : Path) : ∃ after, tree.lengthAt path = (PlainTree.lengthAt raw path, after) ∧
      after.StandsFor loose raw := by
  obtain ⟨result, after, hrun, hanswers, hafter, -⟩ := h.visit_read readsAs_length [] path
  cases answers_eq.mp hanswers
  exact ⟨after, hrun, hafter⟩

theorem StandsFor.isFullAt {tree : Tree} {raw : Bytes} (h : tree.StandsFor loose raw)
    (path : Path) : ∃ after, tree.isFullAt path = (PlainTree.isFullAt raw path, after) ∧
      after.StandsFor loose raw := by
  obtain ⟨result, after, hrun, hanswers, hafter, -⟩ := h.visit_read readsAs_isFull [] path
  cases answers_eq.mp hanswers
  exact ⟨after, hrun, hafter⟩

theorem StandsFor.pushAt {tree : Tree} {raw : Bytes} (h : tree.StandsFor loose raw) (data : Bytes)
    (path : Path) :
    Mirrors loose raw tree.unwritten (PlainTree.pushAt raw data path) (tree.pushAt data path) :=
  h.visit_write (writesAs_pushElement data) [] path

theorem StandsFor.setAt {tree : Tree} {raw : Bytes} (h : tree.StandsFor loose raw) (index : UInt8)
    (data : Bytes) (path : Path) :
    Mirrors loose raw tree.unwritten (PlainTree.setAt raw index data path)
      (tree.setAt index data path) :=
  h.visit_write (writesAs_setElement index data) [] path

/-- Whether a push succeeds, and with which index, depends on the contents alone. -/
theorem StandsFor.pushAt_answer {tree : Tree} {raw : Bytes} (h : tree.StandsFor loose raw)
    (data : Bytes) (path : Path) : (tree.pushAt data path).1 =
      PlainTree.read (fun now => (PlainTree.append data now).map Prod.fst) [] path raw :=
  h.visit_write_answer (writesAs_pushElement data) [] path

theorem StandsFor.setAt_answer {tree : Tree} {raw : Bytes} (h : tree.StandsFor loose raw)
    (index : UInt8) (data : Bytes) (path : Path) : (tree.setAt index data path).1 =
      PlainTree.read (fun now => (PlainTree.replace index data now).map Prod.fst) [] path raw :=
  h.visit_write_answer (writesAs_setElement index data) [] path

/-- A copied subtree stands for the bytes that were read at its path. -/
theorem StandsFor.subtreeAt {tree : Tree} {raw : Bytes} (h : tree.StandsFor loose raw)
    (path : Path) :
    ∃ result after, tree.subtreeAt path = (result, after) ∧ after.StandsFor loose raw ∧
      match PlainTree.subtreeAt raw path with
      | .error e => result = .error e
      | .ok found => ∃ value sub, result = .ok sub ∧ Rereads loose found value ∧
          sub.StandsFor loose value := by
  obtain ⟨read, after, hrun, hanswers, hafter⟩ := h.bytesAt path
  cases hplain : PlainTree.bytesAt raw path with
  | error e =>
    rw [hplain] at hanswers
    cases hanswers.of_error
    simp only [Tree.subtreeAt, PlainTree.subtreeAt, hrun, hplain]
    exact ⟨_, after, rfl, hafter, rfl⟩
  | ok found =>
    rw [hplain] at hanswers
    obtain ⟨value, rfl, hvalue⟩ := hanswers.of_ok
    have hstands : StandsFor loose (ofBytes value) value := standsFor_ofBytes value
    simp only [Tree.subtreeAt, PlainTree.subtreeAt, PlainTree.elements, hrun, hplain,
      ← hvalue.unpack_eq]
    cases hunpack : Packing.unpack maxElements value with
    | error e =>
      have hfail := hstands.materialize_error hunpack
      rw [show (LazyArray.ofBytes value maxElements).materialize = .error e from hfail.1]
      exact ⟨_, after, rfl, hafter, rfl⟩
    | ok now =>
      obtain ⟨array, harray, hopen⟩ := hstands.materialize hunpack
      rw [show (LazyArray.ofBytes value maxElements).materialize = .ok array from harray]
      exact ⟨_, after, rfl, hafter, value, _, rfl, hvalue, hopen.standsFor⟩

end ByteFormula.Tree
