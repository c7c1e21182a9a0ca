import LibC.Lib.Heap
import LibC.Lib.Loop
import LibC.Lib.Tower
import LibC.Lib.Run
import LibC.Lib.Dict
import LibC.Lib.Bytes
import LibC.Lib.Tokens
import LibC.Lib.Disk
import LibC.Lib.Chain
import LibC.Lib.Circular
import LibC.Lib.RedBlack
import LibC.Lib.BinTree
import LibC.Lib.Board
import LibC.Lib.Text
import LibC.SkipList.List
import LibC.SkipList.Repr
import LibC.SkipList.Search
import LibC.SkipList.Splice
import LibC.SkipList.InsertTheorems
import LibC.SkipList.DeleteTheorems
import LibC.SkipList.ListTheorems
import LibC.SkipList.IterTheorems
import LibC.SkipList.SortSet
import LibC.SkipList.SortSetTheorems
import LibC.SkipList.Query
import LibC.SkipList.RangeTheorems
import LibC.SkipList.RankTheorems
import LibC.SkipList.FaultTheorems
import LibC.SkipList.OrderTheorems
import LibC.SkipList.CountTheorems
import LibC.SkipList.Standalone
import LibC.SkipList.StandaloneTheorems
import LibC.Server.Sldb
import LibC.Server.SldbTheorems
import LibC.Server.Db
import LibC.Server.DbTheorems
import LibC.Server.SaveTheorems
import LibC.Server.LoadTheorems
import LibC.Server.FaultTheorems
import LibC.Server.Handlers
import LibC.Server.HandlerTheorems
import LibC.Server.RoundTripTheorems
import LibC.Server.Process
import LibC.Server.ProcessTheorems
import LibC.Server.SaveProcess
import LibC.Server.SaveProcessTheorems
import LibC.Server.CountTheorems
import LibC.Server.RangeHandlers
import LibC.Server.RangeHandlerTheorems
import LibC.Server.RecordFile
import LibC.Server.RecordFileTheorems
import LibC.Server.RankHandlers
import LibC.Proxy.Buffer
import LibC.Proxy.Cmd
import LibC.Proxy.Task
import LibC.Proxy.BufferTheorems
import LibC.Proxy.RecvTheorems
import LibC.Proxy.DrainTheorems
import LibC.Proxy.ParkTheorems
import LibC.Proxy.SendTheorems
import LibC.Proxy.Routing
import LibC.Proxy.RoutingTheorems
import LibC.Proxy.LoopTheorems
import LibC.Proxy.Accept
import LibC.Proxy.AcceptTheorems
import LibC.Proxy.Serialize
import LibC.Proxy.SerializeTheorems
import LibC.Proxy.MqMgr
import LibC.Proxy.MqMgrTheorems
import LibC.Client.TcpClient
import LibC.Client.TcpClientTheorems
import LibC.Client.EpollClient
import LibC.Client.EpollClientTheorems
import LibC.HashMap.HashTable
import LibC.HashMap.HashTableTheorems
import LibC.RbTree.RbTree
import LibC.RbTree.TreeTheorems
import LibC.RbTree.InsertTheorems
import LibC.RbTree.HeightTheorems
import LibC.BinaryTree.BinaryTree
import LibC.BinaryTree.TreeTheorems
import LibC.BinaryTree.DeleteTheorems
import LibC.BinaryTree.NeighbourTheorems
import LibC.BinaryTree.InsertTheorems
import LibC.List.List
import LibC.List.ListTheorems
import LibC.Server.MqMgr
import LibC.Server.Dispatch
import LibC.Server.QueryTheorems
import LibC.Server.DispatchTheorems
import LibC.Server.MqMgrTheorems
import LibC.Server.Leaderboard
import LibC.Server.LeaderboardTheorems
import LibC.Server.LoadItems
import LibC.Server.LoadItemTheorems
import LibC.Server.RestartTheorems
import LibC.Server.LifeTheorems
import LibC.Cluster.Cluster
import LibC.Cluster.ClusterTheorems
import LibC.Config.IniFile
import LibC.Config.Ini
import LibC.Config.IniTheorems
import LibC.Config.RenderTheorems
import LibC.Config.ServerConfig
import LibC.Config.ServerConfigTheorems
