/-
# Character classes as runs

A class of characters is given by the lengths of the runs of code points that lie
outside and inside of it, in turn: the first run lies outside and may be empty, and
what follows the last one lies on the other side of it. Two classes of the Unicode
character database are needed: the characters that quoted text never shows as
themselves, and the letters and numbers of which names are made.
-/

namespace Restack.Text

/-- Whether a code point lies in the class that the runs describe: it lies behind the
first run and not in the class of the runs after it. -/
def inClass : List Nat → Nat → Bool
  | [], _ => false
  | run :: runs, code => run ≤ code && !inClass runs (code - run)

/-- Runs written one behind the other. The signs from `0` to `Z` are the last digits
of their lengths, to base 43, and small letters the digits before, to base 26. -/
def runsOf : Nat → List Char → List Nat
  | _, [] => []
  | high, c :: rest =>
    if c < 'a' then (high * 43 + (c.toNat - 48)) :: runsOf 0 rest
    else runsOf (high * 26 + (c.toNat - 97)) rest

/-- Controls, format characters, separators other than the plain space, private
and unassigned code points, the marks that extend the character before them, and
the letters that a renderer may ignore. -/
def concealedRuns : List Nat := runsOf 0 (List.flatMap String.toList [
  "0Pc9R<1nScJ82647111D1f97dU1V2b723b311121219K46A:;11b3E@1c?8162214P211NMc3;1>b0973H4191317?1I511",
  ";5P@Zb>b<111484137:2M1218222F1711343112622211=2134H5116422F1712121243H4117:2311<119131F17121534",
  "811231?24<718218222F17121531216222?2134B;116331432111232333<5112331331EE6318131G1@3134C312224:7",
  ":1;131G1:15322112G3124:13>;131Y2112531312431:4J221B3H19112792677:23<b512;88=U211151H111:1291251",
  "19:24PH2K11111>1TB15125b68161=Ub24161222I243@4=12261?1X11512d>2fA142711142Y142Q142711142?1b>142",
  "bH5M3J6c0262oV1L3c37B=C329B>=13?b9217812;93:6:6;5:6c3752R115bK:O44234216713Z25;b14J6;3b>223b=11",
  "911286=:6:6>c0b5:4381M9<2P426b=112311=b5825?3bC5b02;;1=1741613215eDbEgD262V26281111111O2b:1?1>2",
  "61C2319AH8b4A22K1=3RbCd;4pEF;Ebq62iQ325b211512b=72?G9717171717171717Qc8RJ1c3<eZJ@1Y6@1c04c?5b01",
  "b81Z1c09b51baf:3b<9i4Db441:P2bU268f6DA13141I254:6b=8bI:<H=1V8I;1<N6b51242221=1;471I1Y6222;31811",
  "2:2P1b81132252111HA28;6262697171bA4cO12143:6jzS<G4b6hoHiF2cDV7<5511H151112121p5P@@:FS1C14451d64",
  "dN1N362626233717=22<1J1C121?2>RcU534b23c21=31b4b2d2M3b6@K4T9N5V:N1U4>ZdM2:6T4T4X8b9;<1?17121;1?",
  "17123b9<h:9F:8H61Z19bJ6211b112312G1bM89b5C125Q3K5KVb=4D2b4?4131M:9797bEPU6<9b;3M2K5J74<7bUbNb<b",
  "8=b87Z<:6V8H82eTO1Z3122@689WX8F;9FB44VLDG911b;?74N1221<b6422214>I7:9T519B8S13;b99118421@1D;B1L3",
  "24612bD711141?1;6b413=:8218222F171215311114222231<7L:11211V1112?112311312Wb=82311E1113Nb5126112",
  "1121248:dUb41264212KTb8821124;:6=Cb01112826:6DLK3112419Ge=b49121c>bX<82128121H151264139:bK82Z84",
  "14K1:X624891623b3=129=bN7:c113111c2R>:691V>116:M3PI17121bP7121VE19:66121U4211117:6b14:fOC249?1T",
  "823Gc01?b7=vDc@cI15;eHcj=c==yXA6IdoW5nHgd4N<33:bo>n:7O1:4bV1:6N71:b57?::171E5Ck2b?eJc55I2Ib1bP5",
  "b=;=bE4>59gpMYPc;cMhu?417121gQ?1M321>48j9cbMcE5=397:2121dnGfV3k66G?Ac9cNbAfO:W2bA53F27N4bBEbG31",
  "cTD<D<c19Id6bZ1bL122122241<11171bF1428171L141511371hW2gR2n3b<4b781>17baFO66g3bCdAb2:72:42hCNBb1",
  "4:51kRL4:eZN2;41eDO1312172592f9714121?1eI29b5bI714:42s;bIbQbBeF41K1211211:141111614111111312112",
  "111111111121124171414111:1A53151Ab92g<b14c><?2?1?1U:e2b=M=b14972>6dIwW3A3=3f36<41?<4b=8:6X8N2<4",
  "2>9Wi08>2=3;3b>114@2<4:7dB1cAxXbmfEPdxW2fe<2grR?oDcf?mJbj1ekU5hpC"])

/-- Alphabetic characters together with every kind of number. -/
def alphanumericRuns : List Nat := runsOf 0 (List.flatMap String.toList [
  "b5:7J6Jb41721132131G1O1kL4<>57111c01MB1224116113111D1bX1d:8dU1V216YW>111212118K44M;5b=1A4c@1848",
  "4@21@b5=c?>b092415H2CCI7;5H17718Z:<376bQ1@134?2:1C18222F171134382222118142152<26214316422F17121",
  "2124542224174117@;319131F17121539131231?42:944318222F1712153822229242152:17:216331432111232333<",
  "4533133161>===131G1@381313821312242:871418131G1:153813138253142:13<=131Y281313115@2C16131B3H191",
  "1278611186:22=b?57612:W211151H111C132511612:24P1OD<81T4C4@1TbHb<112?6bS2V11512b01hP142711142Y14",
  "2Q142711142?1b>142bH>D3@@c0263oB2A1J5bP3;7D;E<D<=1312<b92C>1413:6:F:6c37b05bK:O1<49=X25;b14J6;U",
  "L4bD2D;:6:=1G2;3b6b91?183:VZ2b?1;>b<9:3b62;5b023Y41612315eDCR;gD262V26281111111O2b:171133173426",
  "4=5317cM2265;6=c?1412:1135611111141;2455411b?qVbAJbOoLNba>f>6432912V11512b=71@G9717171717171717",
  "1Pb41kW3I975254c0631c4145b01c834:Pb5@P:N81?P:W?hCfx=bEtv<bHb32g;3LDb4583cKW92cA2bWDE1Q86:b9<bI1",
  "1::H6311b35S=M3b81<?;6O1b<9>2:6G3bJ1111H32@24;6262697171b01>6cU5:6jzS<G4b6hoHiF2cDV7<55<1=15111",
  "2121cFQiCBbE2b;X<cN51d6C:7J6J;c336262623S<1J1C121?2>RcU<b2<b>A2fMM3b6@K4T9N5b05N2T4815ZdM2:6T4T",
  "4X8b9<;1?17121;1?17123b9<h:9F:8H61Z19bJ6211b112312G2O2V89b5C125Q4J6JVb=4D2b71258131M:9GO1PP81L6",
  "5@b;:F2K5JG7bUbNb<b8=b87b38:6V315Gf3O1Z1232@6b733X8F;4KBb3LDG9bK<N15:b>91=I7:6b83:448S319bE149=",
  "114D;B1R2164bC711141?1:7b>7:6418222F171215382222316157L:11211V1:112114123111b1bG13145:53NbG2211",
  "8:dUb;27I6RbD1131;:Vb;217:6DLK2>5<47e=b>cAbX<82128121N122224=:bK82b3261112Kb82:AbM51BbNcA8c2Q?:",
  "691b21711?M5N2F1>bN7121b131121311228:66121U1214117:6b14:fOG9A1Y33?:c01?Eb0vCc@cIAeHcj=c;?yXA6Id",
  "oW5nHgd4b41:bo>n:7O1:6bT1:6NBb5@4<:171E5Ck2b23:eJc19I2Ib1bP4b>7AbE211<79gpMYPc;cMhu?417121gQ?1M",
  "321>48j9cbMcE5=397:41dt6:bi@D<DcFId6bZ1bL122122241<11171bF1428171L141511371hW2I1I1O1I1O1I1O1I1O",
  "1I182b7bpMO66eY71A2712155bCQ1cJb2:72:41hDNBb14:kXL4:eZN2;eIO1F82f9714121?1eI29b5bI31314:sAb@131",
  "4bQb21?eF41K1211211:141111614111111312112111111111121124171414111:1A53151AnE=SJ6J6JcjW:xYbmfEPd",
  "xW2fe<2grR?oDcf?mJbj1ekU5hpC"])

/-- Quoted text writes such a character by its code point. -/
def isConcealed (c : Char) : Bool := inClass concealedRuns c.toNat

/-- A letter or a number in any script. -/
def isAlphanumeric (c : Char) : Bool := inClass alphanumericRuns c.toNat

end Restack.Text
