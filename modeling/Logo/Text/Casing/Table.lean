import Logo.Text.Marks

/-!
# Case tables

The case mappings of single characters, as runs that share one distance, the characters that map to
several, and the two properties that decide which small sigma ends a word.
-/

namespace Logo.Text

/-- Every `stride`-th character from `first` to `last` maps to the one `shift` further on. -/
structure CaseRun where
  first : Nat
  last : Nat
  stride : Nat
  shift : Int

/-- The run that leads back from the counterparts. -/
def CaseRun.inverse (run : CaseRun) : CaseRun where
  first := (run.first + run.shift).toNat
  last := (run.last + run.shift).toNat
  stride := run.stride
  shift := -run.shift

/-- Rows of characters whose small counterparts stand in a row too. -/
def lowerRows : List (Nat × Nat × Int) := [
  (65, 90, 32), (192, 214, 32), (216, 222, 32), (393, 394, 205), (433, 434, 217), (904, 906, 37),
  (910, 911, 63), (913, 929, 32), (931, 939, 32), (1021, 1023, -130), (1024, 1039, 80),
  (1040, 1071, 32), (1329, 1366, 48), (4256, 4293, 7264), (5024, 5103, 38864), (5104, 5109, 8),
  (7312, 7354, -3008), (7357, 7359, -3008), (7944, 7951, -8), (7960, 7965, -8), (7976, 7983, -8),
  (7992, 7999, -8), (8008, 8013, -8), (8040, 8047, -8), (8072, 8079, -8), (8088, 8095, -8),
  (8104, 8111, -8), (8120, 8121, -8), (8122, 8123, -74), (8136, 8139, -86), (8152, 8153, -8),
  (8154, 8155, -100), (8168, 8169, -8), (8170, 8171, -112), (8184, 8185, -128), (8186, 8187, -126),
  (8544, 8559, 16), (9398, 9423, 26), (11264, 11311, 48), (11390, 11391, -10815),
  (65313, 65338, 32), (66560, 66599, 40), (66736, 66771, 40), (66928, 66938, 39),
  (66940, 66954, 39), (66956, 66962, 39), (66964, 66965, 39), (68736, 68786, 64),
  (68944, 68965, 32), (71840, 71871, 32), (93760, 93791, 32), (93856, 93880, 27),
  (125184, 125217, 34)]

/-- Rows in which every second character is the small counterpart of the one before it. -/
def lowerTurns : List (Nat × Nat) := [
  (256, 302), (306, 310), (313, 327), (330, 374), (377, 381), (386, 388), (416, 420), (435, 437),
  (459, 475), (478, 494), (498, 500), (504, 542), (546, 562), (582, 590), (880, 882), (984, 1006),
  (1120, 1152), (1162, 1214), (1217, 1229), (1232, 1326), (7680, 7828), (7840, 7934),
  (11367, 11371), (11392, 11490), (11499, 11501), (42560, 42604), (42624, 42650), (42786, 42798),
  (42802, 42862), (42873, 42875), (42878, 42886), (42896, 42898), (42902, 42920), (42932, 42946),
  (42951, 42953), (42956, 42970)]

/-- Characters on their own and how far from them their small counterparts stand. -/
def lowerSingles : List (Nat × Int) := [
  (376, -121), (385, 210), (390, 206), (391, 1), (395, 1), (398, 79), (399, 202), (400, 203),
  (401, 1), (403, 205), (404, 207), (406, 211), (407, 209), (408, 1), (412, 211), (413, 213),
  (415, 214), (422, 218), (423, 1), (425, 218), (428, 1), (430, 218), (431, 1), (439, 219),
  (440, 1), (444, 1), (452, 2), (453, 1), (455, 2), (456, 1), (458, 2), (497, 2), (502, -97),
  (503, -56), (544, -130), (570, 10795), (571, 1), (573, -163), (574, 10792), (577, 1), (579, -195),
  (580, 69), (581, 71), (886, 1), (895, 116), (902, 38), (908, 64), (975, 8), (1012, -60),
  (1015, 1), (1017, -7), (1018, 1), (1216, 15), (4295, 7264), (4301, 7264), (7305, 1),
  (7838, -7615), (8025, -8), (8027, -8), (8029, -8), (8031, -8), (8124, -9), (8140, -9), (8172, -7),
  (8188, -9), (8486, -7517), (8490, -8383), (8491, -8262), (8498, 28), (8579, 1), (11360, 1),
  (11362, -10743), (11363, -3814), (11364, -10727), (11373, -10780), (11374, -10749),
  (11375, -10783), (11376, -10782), (11378, 1), (11381, 1), (11506, 1), (42877, -35332), (42891, 1),
  (42893, -42280), (42922, -42308), (42923, -42319), (42924, -42315), (42925, -42305),
  (42926, -42308), (42928, -42258), (42929, -42282), (42930, -42261), (42931, 928), (42948, -48),
  (42949, -42307), (42950, -35384), (42955, -42343), (42972, -42561), (42997, 1)]

def CaseRun.single (character : Nat × Int) : CaseRun :=
  ⟨character.1, character.1, 1, character.2⟩

/-- Characters with a single small counterpart. -/
def lowerRuns : List CaseRun :=
  (lowerRows.map fun row => ⟨row.1, row.2.1, 1, row.2.2⟩) ++ lowerSingles.map .single ++
  lowerTurns.map fun row => ⟨row.1, row.2, 2, 1⟩

/-- Characters with a single capital counterpart: the counterparts of capitals, and those that share
their capital with another character. -/
def upperRuns : List CaseRun := lowerRuns.map .inverse ++ List.map .single [
  (181, 743), (305, -232), (383, -300), (453, -1), (456, -1), (459, -1), (498, -1), (837, 84),
  (962, -31), (976, -62), (977, -57), (981, -47), (982, -54), (1008, -86), (1009, -80), (1013, -96),
  (7296, -6254), (7297, -6253), (7298, -6244), (7299, -6242), (7300, -6242), (7301, -6243),
  (7302, -6236), (7303, -6181), (7304, 35266), (7835, -59), (8126, -7205)]

/-- Characters whose small form is a sequence. -/
def lowerSequences : List (Nat × List Nat) := [
  (304, [105, 775])]

/-- Eight letters with an iota below, whose capital form has it behind the letter. -/
def iotaBelow (first base : Nat) : List (Nat × List Nat) :=
  (List.range 8).map fun i => (first + i, [base + i, 921])

/-- Characters whose capital form is a sequence. -/
def upperSequences : List (Nat × List Nat) :=
  iotaBelow 8064 7944 ++ iotaBelow 8072 7944 ++ iotaBelow 8080 7976 ++ iotaBelow 8088 7976 ++
  iotaBelow 8096 8040 ++ iotaBelow 8104 8040 ++ [
  (223, [83, 83]), (329, [700, 78]), (496, [74, 780]), (912, [921, 776, 769]),
  (944, [933, 776, 769]), (1415, [1333, 1362]), (7830, [72, 817]), (7831, [84, 776]),
  (7832, [87, 778]), (7833, [89, 778]), (7834, [65, 702]), (8016, [933, 787]),
  (8018, [933, 787, 768]), (8020, [933, 787, 769]), (8022, [933, 787, 834]), (8114, [8122, 921]),
  (8115, [913, 921]), (8116, [902, 921]), (8118, [913, 834]), (8119, [913, 834, 921]),
  (8124, [913, 921]), (8130, [8138, 921]), (8131, [919, 921]), (8132, [905, 921]),
  (8134, [919, 834]), (8135, [919, 834, 921]), (8140, [919, 921]), (8146, [921, 776, 768]),
  (8147, [921, 776, 769]), (8150, [921, 834]), (8151, [921, 776, 834]), (8162, [933, 776, 768]),
  (8163, [933, 776, 769]), (8164, [929, 787]), (8166, [933, 834]), (8167, [933, 776, 834]),
  (8178, [8186, 921]), (8179, [937, 921]), (8180, [911, 921]), (8182, [937, 834]),
  (8183, [937, 834, 921]), (8188, [937, 921]), (64256, [70, 70]), (64257, [70, 73]),
  (64258, [70, 76]), (64259, [70, 70, 73]), (64260, [70, 70, 76]), (64261, [83, 84]),
  (64262, [83, 84]), (64275, [1348, 1350]), (64276, [1348, 1333]), (64277, [1348, 1339]),
  (64278, [1358, 1350]), (64279, [1348, 1341])]

/-- The property `Cased`. -/
def cased : Ranges := .ofRuns 0 [
  65,26,6,26,47,1,10,1,4,1,5,23,1,31,1,195,1,4,4,208,2,35,7,2,30,5,96,1,42,4,2,2,2,4,1,1,6,1,1,3,1,
  1,1,20,1,83,1,139,8,166,1,38,9,41,2839,38,1,1,5,1,2,43,1,4,672,86,2,6,2178,11,5,43,2,3,64,192,64,
  278,2,6,2,38,2,6,2,8,1,1,1,1,1,1,1,31,2,53,1,7,1,1,3,3,1,7,3,4,2,6,4,13,5,3,1,7,116,1,13,1,16,13,
  101,1,4,1,2,10,1,1,3,5,6,1,1,1,1,1,1,4,1,6,4,1,2,4,5,5,4,1,17,32,3,2,817,52,1814,229,6,4,3,2,12,
  38,1,1,5,1,30994,46,18,30,132,102,3,4,1,77,20,6,1,3,821,43,1,14,6,80,20288,7,12,5,1033,26,6,26,
  1189,80,96,36,4,36,116,11,1,15,1,7,1,2,1,11,1,15,1,7,1,2,451,1,2,3,1,42,1,9,1221,51,13,51,93,22,
  10,22,2842,64,21856,64,32,25,2,25,25900,85,1,71,1,2,2,1,2,2,2,4,1,12,1,1,1,7,1,65,1,4,2,8,1,7,1,
  28,1,4,1,5,1,1,3,7,1,340,2,25,1,25,1,31,1,25,1,31,1,25,1,31,1,25,1,31,1,25,1,8,1844,10,1,20,6,6,
  261,62,2194,68,2028,26,6,26,6,26]

/-- The property `Case_Ignorable`. -/
def caseIgnorable : Ranges := nonspacing ++ Ranges.ofRuns 0 [
  39,1,6,1,11,1,35,1,1,1,71,1,4,1,1,1,4,1,2,2,503,80,116,2,4,1,9,2,1,1,465,1,5,1,148,1,11,6,22,1,35,
  1,156,1,7,2,40,1,228,2,4,1,31,1,9,1,3,1,95,1,7,2,55,1,24,1,142,1,1236,1,127,1,565,1,1754,1,54,1,
  52,1,611,1,464,6,174,63,13,1,34,37,509,1,1,3,11,3,13,3,13,3,13,2,12,1,1,3,8,2,10,1,2,1,2,5,49,5,1,
  10,1,1,13,1,16,13,3039,2,241,1,191,1,469,1,43,5,5,1,95,4,93,3,28438,1,1250,6,270,1,114,1,28,2,98,
  34,78,1,23,3,102,4,3,2,469,1,22,1,137,1,108,1,21,2,102,5,9,3,20550,17,592,1,62,1,2,1,169,1,7,1,6,
  1,11,1,35,1,1,1,47,1,114,1,21,3,1924,6,1,42,1,9,1427,1,32,1,341,1,503,1,15,1,3339,1,5718,16,14080,
  4,508,3,40,2,550,13,64,2,1,1,14,2,16380,4,1,7,1,2,3233,4,5327,8,3765,62,201,7,941,1,531,1,587,1,
  792245,1]

end Logo.Text
